import HttpWebserver.HttpConnection.ParseRequest

/-!
# HttpConnection — the grammar of the request line

What `parseRequestLine` makes of a text, against a grammar for it.

* `RequestLine`: a text `M w₁ U w₂ V` with a method, a target and the version;
* `HasPath`: the path of a target, behind the scheme and the host if there are any;
* `StringAt`: a string in the storage of a pointer, with what the functions on it return.

`parseRequestLine_cases` runs the first two parts of the function: the text is rejected, or the
url points at the target of a `RequestLine`. What `parseUrl` does there depends on the target.

* **`parseRequestLine_decides_iff`** — the grammar is decided, unless the target has the scheme
  `http://` and no `/` behind it;
* **`parseRequestLine_writes_line`** — what is written stays in the line and its terminator.
-/

namespace HttpWebserver

open CString PartialRules Storage

namespace Ptr

theorem add_off {p : Ptr} (h : p ≠ .null) (n : Nat) : (p.add n).off = p.off + n := by
  cases p with
  | null => exact absurd rfl h
  | input off => rfl
  | output off => rfl

theorem add_add (p : Ptr) (m n : Nat) : (p.add m).add n = p.add (m + n) := by
  cases p with
  | null => rfl
  | input off => exact congrArg Ptr.input (Nat.add_assoc off m n)
  | output off => exact congrArg Ptr.output (Nat.add_assoc off m n)

theorem add_zero (p : Ptr) : p.add 0 = p := by cases p <;> rfl

theorem add_ne_null {p : Ptr} (h : p ≠ .null) (n : Nat) : p.add n ≠ .null := by
  cases p with
  | null => exact absurd rfl h
  | input off => nofun
  | output off => nofun

end Ptr

namespace HttpConnection

/-! ## The grammar

What a request line is: not translated from the source, but the purpose of it. -/

/-- The word for a method. -/
def verbOf : Method → List UInt8
  | .GET => ascii "GET"
  | .POST => ascii "POST"

/-- A method, a target and the version, with blanks between them. -/
structure RequestLine where
  method : Method
  verb : List UInt8
  gap : List UInt8
  target : List UInt8
  gap' : List UInt8
  version : List UInt8
  verb_eq : SameNoCase verb (verbOf method)
  gap_ne : gap ≠ []
  gap_blank : ∀ x ∈ gap, x ∈ blanks
  target_ne : target ≠ []
  target_blank : ∀ x ∈ target, x ∉ blanks
  gap'_ne : gap' ≠ []
  gap'_blank : ∀ x ∈ gap', x ∈ blanks
  version_eq : SameNoCase version (ascii "HTTP/1.1")

def RequestLine.text (l : RequestLine) : List UInt8 :=
  l.verb ++ (l.gap ++ (l.target ++ (l.gap' ++ l.version)))

/-- The path of a target: the target itself, or what follows the scheme and the host. -/
inductive HasPath : List UInt8 → List UInt8 → Prop where
  | path (q : List UInt8) : HasPath (slash :: q) (slash :: q)
  | remote {scheme host : List UInt8} (q : List UInt8)
      (hscheme : SameNoCase scheme (ascii "http://") ∨ SameNoCase scheme (ascii "https://"))
      (hhost : slash ∉ host) : HasPath (scheme ++ (host ++ slash :: q)) (slash :: q)

/-- The target begins with the scheme, and no `/` follows. -/
def Unslashed (scheme target : List UInt8) : Prop :=
  ∃ word host, target = word ++ host ∧ SameNoCase word scheme ∧ slash ∉ host

/-- The path `/` stands for a page. -/
def pageOf (path : List UInt8) : List UInt8 :=
  if path = [slash] then slash :: ascii "judge.html" else path

/-! ## A string in the storage

What each operation on a `char*` does where it points at a string with the rest of the storage
known. -/

/-- The storage of `p` is `mem`, and the string at `p` is `s`. -/
structure StringAt (c : HttpConnection) (p : Ptr) (mem s : List UInt8) : Prop where
  storage : c.storage p = some mem
  string : cString mem p.off = some s

section StringAt

variable {c d : HttpConnection} {p : Ptr} {mem a b s t w : List UInt8} {x : UInt8}

theorem deref_eq_some : c.deref p = some s ↔ ∃ mem, c.StringAt p mem s := by
  constructor
  · intro h
    cases p with
    | null => cases h
    | input off => exact ⟨_, rfl, h⟩
    | output off => exact ⟨_, rfl, h⟩
  · rintro ⟨mem, hmem, h⟩
    cases p with
    | null => cases hmem
    | input off =>
      cases hmem
      exact h
    | output off =>
      cases hmem
      exact h

theorem storage_add (c : HttpConnection) (p : Ptr) (n : Nat) :
    c.storage (p.add n) = c.storage p := by
  cases p <;> rfl

theorem charAt_add (c : HttpConnection) (hp : p ≠ .null) (m n : Nat) :
    c.charAt (p.add m) n = c.charAt p (m + n) := by
  rw [charAt, charAt, storage_add, Ptr.add_off hp, Nat.add_assoc]

theorem setStorage_add (c : HttpConnection) (p : Ptr) (n : Nat) (mem : List UInt8) :
    c.setStorage (p.add n) mem = c.setStorage p mem := setStorage_moveTo c p mem _

theorem ne_null_of_storage (h : c.storage p = some mem) : p ≠ .null := by
  rintro rfl
  cases h

theorem storage_setStorage (hp : p ≠ .null) (mem : List UInt8) :
    (c.setStorage p mem).storage p = some mem := by
  cases p with
  | null => exact absurd rfl hp
  | input off => rfl
  | output off => rfl

namespace StringAt

theorem ne_null (h : c.StringAt p mem s) : p ≠ .null := ne_null_of_storage h.storage

theorem add (h : c.StringAt p mem (a ++ b)) : c.StringAt (p.add a.length) mem b := by
  refine ⟨(storage_add c p _).trans h.storage, ?_⟩
  rw [Ptr.add_off h.ne_null]
  exact cString_add h.string

theorem reading {α : Type} (h : c.StringAt p mem s) (f : List UInt8 → Nat → Option α) :
    c.reading p f = f mem p.off := by
  rw [HttpConnection.reading, h.storage]
  rfl

theorem search (h : c.StringAt p mem s) (f : List UInt8 → Nat → Option (Option Nat)) :
    c.search p f = (f mem p.off).map fun found => found.elim .null p.moveTo := by
  rw [HttpConnection.search, h.storage, Option.map_eq_bind]
  rfl

theorem search_found (h : c.StringAt p mem (a ++ x :: b)) {accept : List UInt8}
    (ha : ∀ y ∈ a, y ∉ accept) (hx : x ∈ accept) :
    c.search p (strpbrk · · accept) = some (p.add a.length) := by
  rw [h.search, strpbrk_found h.string ha hx]
  rfl

theorem search_none (h : c.StringAt p mem s) {accept : List UInt8} (hs : ∀ y ∈ s, y ∉ accept) :
    c.search p (strpbrk · · accept) = some .null := by
  rw [h.search, strpbrk_none h.string hs]
  rfl

theorem skipBlanks (h : c.StringAt p mem (w ++ t)) (hw : ∀ y ∈ w, y ∈ blanks)
    (ht : ∀ y ∈ t.head?, y ∉ blanks) : c.skipBlanks p = some (p.add w.length) := by
  rw [HttpConnection.skipBlanks, h.reading, strspn_eq h.string hw ht (by decide)]
  rfl

theorem strcasecmp (h : c.StringAt p mem s) (ht : 0 ∉ t) :
    c.reading p (CString.strcasecmp · · t) = some (decide (SameNoCase s t)) := by
  rw [h.reading]
  exact strcasecmp_eq h.string ht

theorem strncasecmp (h : c.StringAt p mem s) (ht : 0 ∉ t) :
    c.reading p (CString.strncasecmp · · t) = some (decide (SameNoCase (s.take t.length) t)) := by
  rw [h.reading]
  exact strncasecmp_eq h.string ht

/-- The first byte, or the NUL behind an empty string. -/
theorem charAt_zero (h : c.StringAt p mem s) : c.charAt p 0 = some (s.head?.getD 0) := by
  obtain ⟨-, rest, hmem⟩ := cString_eq_some_iff.mp h.string
  show (c.storage p).bind (fun mem => mem[p.off + 0]?) = _
  rw [h.storage, Option.bind_some, ← List.getElem?_drop, hmem]
  cases s <;> rfl

theorem writing (h : c.StringAt p mem s) {f : List UInt8 → Nat → Option (List UInt8)}
    {mem' : List UInt8} (hf : f mem p.off = some mem') :
    c.writing p f = some (c.setStorage p mem') := by
  rw [writing_eq h.storage, hf]
  rfl

/-- The NUL that ends a word, and what is in the storage then. -/
theorem putNul (h : c.StringAt p mem (a ++ x :: b)) :
    ∃ mem', c.putNul (p.add a.length) 0 = some (c.setStorage p mem') ∧
      (c.setStorage p mem').StringAt p mem' a ∧
      (c.setStorage p mem').StringAt (p.add (a.length + 1)) mem' b ∧
      SameOutside p.off (p.off + a.length + 1) mem mem' := by
  have hlt := cString_lt h.string
  rw [List.length_append, List.length_cons] at hlt
  have hroom : p.off + a.length + [(0 : UInt8)].length ≤ mem.length := by
    rw [List.length_singleton]
    omega
  have hstorage := storage_setStorage (c := c) h.ne_null (overwrite mem (p.off + a.length) [0])
  refine ⟨overwrite mem (p.off + a.length) [0], ?_, ⟨hstorage, ?_⟩, ⟨?_, ?_⟩, ?_⟩
  · rw [HttpConnection.putNul, storage_add, h.storage]
    show (writeAt mem ((p.add a.length).off + 0) [0]).bind _ = _
    rw [Ptr.add_off h.ne_null, Nat.add_zero, writeAt_eq_some hroom, Option.bind_some, Ptr.add,
      setStorage_moveTo]
  · have hword := cString_overwrite (t := []) h.string nofun hroom
    rw [List.append_nil] at hword
    exact hword
  · exact (storage_add _ p _).trans hstorage
  · -- the rest of the string is behind the write
    have hrest : cString mem (p.off + (a.length + 1)) = some b := by
      have h' : cString mem p.off = some ((a ++ [x]) ++ b) := by
        rw [List.append_assoc]
        exact h.string
      have := cString_add h'
      rwa [List.length_append] at this
    rw [Ptr.add_off h.ne_null, ← hrest]
    apply cString_congr
    exact drop_overwrite hroom (Nat.le_refl _)
  · exact .overwrite (Nat.le_add_right _ _) (Nat.le_refl _) hroom

end StringAt

end StringAt

/-! ## The words

A text is in the grammar in one way at most, so the method and the path of it are determined. -/

/-- The method a word is compared with. -/
def methodOf (verb : List UInt8) : Option Method :=
  if SameNoCase verb (ascii "GET") then some .GET
  else if SameNoCase verb (ascii "POST") then some .POST
  else none

theorem methodOf_eq_some {verb : List UInt8} {method : Method} :
    methodOf verb = some method ↔ SameNoCase verb (verbOf method) := by
  have happart : ∀ h : SameNoCase verb (ascii "GET"), ¬ SameNoCase verb (ascii "POST") := by
    intro hget hpost
    exact absurd (hget.symm.trans hpost) (by decide)
  unfold methodOf
  by_cases hget : SameNoCase verb (ascii "GET")
  · rw [if_pos hget]
    cases method with
    | GET => exact iff_of_true rfl hget
    | POST => exact iff_of_false nofun (happart hget)
  · rw [if_neg hget]
    by_cases hpost : SameNoCase verb (ascii "POST")
    · rw [if_pos hpost]
      cases method with
      | GET => exact iff_of_false nofun hget
      | POST => exact iff_of_true rfl hpost
    · rw [if_neg hpost]
      cases method with
      | GET => exact iff_of_false nofun hget
      | POST => exact iff_of_false nofun hpost

theorem verbOf_blank {verb : List UInt8} {method : Method} (h : SameNoCase verb (verbOf method)) :
    ∀ x ∈ verb, x ∉ blanks := by
  have hblank : ∀ x ∈ blanks, toLower x ∉ (verbOf method).map toLower := by
    cases method <;> decide +kernel
  exact fun x hx hb => not_mem_of_sameNoCase h (hblank x hb) hx

theorem version_blank {version : List UInt8} (h : SameNoCase version (ascii "HTTP/1.1")) :
    ∀ x ∈ version, x ∉ blanks := by
  have hblank : ∀ x ∈ blanks, toLower x ∉ (ascii "HTTP/1.1").map toLower := by decide +kernel
  exact fun x hx hb => not_mem_of_sameNoCase h (hblank x hb) hx

namespace RequestLine

variable {l l' : RequestLine} {s t u w : List UInt8}

/-- The text has one first word, with the blanks behind it. -/
theorem first_unique (h : l.text = s ++ (w ++ t)) (hs : ∀ x ∈ s, x ∉ blanks) (hne : w ≠ [])
    (hw : ∀ x ∈ w, x ∈ blanks) (ht : ∀ x ∈ t.head?, x ∉ blanks) :
    l.verb = s ∧ l.gap = w ∧ l.target ++ (l.gap' ++ l.version) = t := by
  have hgap : ∀ x ∈ (l.gap ++ (l.target ++ (l.gap' ++ l.version))).head?, ¬ x ∉ blanks :=
    head_append l.gap_ne fun x hx => not_not.mpr (l.gap_blank x hx)
  have hblanks : ∀ x ∈ (w ++ t).head?, ¬ x ∉ blanks :=
    head_append hne fun x hx => not_not.mpr (hw x hx)
  obtain ⟨hverb, hrest⟩ := span_unique h (verbOf_blank l.verb_eq) hgap hs hblanks
  have htarget := head_append (b := l.gap' ++ l.version) l.target_ne l.target_blank
  obtain ⟨hgap, hrest⟩ := span_unique hrest l.gap_blank htarget hw ht
  exact ⟨hverb, hgap, hrest⟩

/-- Behind it is one target, with the blanks behind it. -/
theorem rest_unique (h : l.target ++ (l.gap' ++ l.version) = u ++ (w ++ t))
    (hu : ∀ x ∈ u, x ∉ blanks) (hne : w ≠ []) (hw : ∀ x ∈ w, x ∈ blanks)
    (ht : ∀ x ∈ t.head?, x ∉ blanks) : l.target = u ∧ l.gap' = w ∧ l.version = t := by
  have hgap : ∀ x ∈ (l.gap' ++ l.version).head?, ¬ x ∉ blanks :=
    head_append l.gap'_ne fun x hx => not_not.mpr (l.gap'_blank x hx)
  have hblanks : ∀ x ∈ (w ++ t).head?, ¬ x ∉ blanks :=
    head_append hne fun x hx => not_not.mpr (hw x hx)
  obtain ⟨htarget, hrest⟩ := span_unique h l.target_blank hgap hu hblanks
  have hversion : ∀ x ∈ l.version.head?, x ∉ blanks := fun x hx =>
    version_blank l.version_eq x (List.mem_of_mem_head? hx)
  obtain ⟨hgap, hrest⟩ := span_unique hrest l.gap'_blank hversion hw ht
  exact ⟨htarget, hgap, hrest⟩

/-- A text is one request line at most. -/
theorem text_injective (h : l.text = l'.text) : l = l' := by
  obtain ⟨hverb, hgap, hrest⟩ := first_unique h (verbOf_blank l'.verb_eq) l'.gap_ne l'.gap_blank
    (head_append l'.target_ne l'.target_blank)
  obtain ⟨htarget, hgap', hversion⟩ := rest_unique hrest l'.target_blank l'.gap'_ne
    l'.gap'_blank fun x hx => version_blank l'.version_eq x (List.mem_of_mem_head? hx)
  have hmethod : l.method = l'.method := by
    have := methodOf_eq_some.mpr l.verb_eq
    rw [hverb, methodOf_eq_some.mpr l'.verb_eq] at this
    exact (Option.some.inj this).symm
  cases l
  cases l'
  cases hverb
  cases hgap
  cases htarget
  cases hgap'
  cases hversion
  cases hmethod
  rfl

end RequestLine

/-! ### Texts that are no request line

One lemma for each way in which a text fails to be a request line, in the order of the tests in
the source. -/

section NoLine

variable {verb s t u v w g : List UInt8} {x y : UInt8}

/-- There is no blank. -/
theorem not_line_no_blank (hs : ∀ z ∈ s, z ∉ blanks) : ¬ ∃ l : RequestLine, l.text = s := by
  rintro ⟨l, rfl⟩
  obtain ⟨z, hz⟩ := List.exists_mem_of_ne_nil _ l.gap_ne
  apply hs z _ (l.gap_blank z hz)
  exact List.mem_append_right _ (List.mem_append_left _ hz)

/-- The first word is not a method. -/
theorem not_line_verb (hverb : ∀ z ∈ verb, z ∉ blanks) (hx : x ∈ blanks)
    (hmethod : methodOf verb = none) : ¬ ∃ l : RequestLine, l.text = verb ++ x :: s := by
  rintro ⟨l, hl⟩
  have hgap := head_append (b := l.target ++ (l.gap' ++ l.version)) l.gap_ne
    fun z hz => not_not.mpr (l.gap_blank z hz)
  have hblank : ∀ z ∈ (x :: s).head?, ¬ z ∉ blanks := by
    rintro z ⟨⟩
    exact not_not.mpr hx
  obtain ⟨rfl, -⟩ := span_unique hl (verbOf_blank l.verb_eq) hgap hverb hblank
  rw [methodOf_eq_some.mpr l.verb_eq] at hmethod
  cases hmethod

/-- There is no blank behind the second word. -/
theorem not_line_no_version (hverb : ∀ z ∈ verb, z ∉ blanks) (hx : x ∈ blanks)
    (hw : ∀ z ∈ w, z ∈ blanks) (ht : ∀ z ∈ t, z ∉ blanks) :
    ¬ ∃ l : RequestLine, l.text = verb ++ x :: (w ++ t) := by
  rintro ⟨l, hl⟩
  obtain ⟨-, -, rfl⟩ := l.first_unique (w := x :: w) hl hverb (List.cons_ne_nil x w)
    (List.forall_mem_cons.mpr ⟨hx, hw⟩) fun z hz => ht z (List.mem_of_mem_head? hz)
  obtain ⟨z, hz⟩ := List.exists_mem_of_ne_nil _ l.gap'_ne
  apply ht z _ (l.gap'_blank z hz)
  exact List.mem_append_right _ (List.mem_append_left _ hz)

/-- What follows the second word is not the version. -/
theorem not_line_version (hverb : ∀ z ∈ verb, z ∉ blanks) (hx : x ∈ blanks)
    (hw : ∀ z ∈ w, z ∈ blanks) (hne : u ≠ []) (hu : ∀ z ∈ u, z ∉ blanks) (hy : y ∈ blanks)
    (hg : ∀ z ∈ g, z ∈ blanks) (hv : ∀ z ∈ v.head?, z ∉ blanks)
    (hversion : ¬ SameNoCase v (ascii "HTTP/1.1")) :
    ¬ ∃ l : RequestLine, l.text = verb ++ x :: (w ++ (u ++ y :: (g ++ v))) := by
  rintro ⟨l, hl⟩
  obtain ⟨-, -, hl⟩ := l.first_unique (w := x :: w) hl hverb (List.cons_ne_nil x w)
    (List.forall_mem_cons.mpr ⟨hx, hw⟩) (head_append hne hu)
  obtain ⟨-, -, rfl⟩ := l.rest_unique (w := y :: g) hl hu (List.cons_ne_nil y g)
    (List.forall_mem_cons.mpr ⟨hy, hg⟩) hv
  exact hversion l.version_eq

/-- A method, a target and the version with blanks between them are a request line. -/
theorem line_of_words {method : Method} {verb w u g v : List UInt8} {x y : UInt8}
    (hmethod : methodOf verb = some method) (hx : x ∈ blanks) (hw : ∀ z ∈ w, z ∈ blanks)
    (hne : u ≠ []) (hu : ∀ z ∈ u, z ∉ blanks) (hy : y ∈ blanks) (hg : ∀ z ∈ g, z ∈ blanks)
    (hversion : SameNoCase v (ascii "HTTP/1.1")) :
    ∃ l : RequestLine, l.text = verb ++ x :: (w ++ (u ++ y :: (g ++ v))) ∧ l.method = method ∧
      l.target = u ∧ l.gap' = y :: g := by
  refine ⟨{
    method := method
    verb := verb
    gap := x :: w
    target := u
    gap' := y :: g
    version := v
    verb_eq := methodOf_eq_some.mp hmethod
    gap_ne := List.cons_ne_nil x w
    gap_blank := List.forall_mem_cons.mpr ⟨hx, hw⟩
    target_ne := hne
    target_blank := hu
    gap'_ne := List.cons_ne_nil y g
    gap'_blank := List.forall_mem_cons.mpr ⟨hy, hg⟩
    version_eq := hversion }, rfl, rfl, rfl, rfl⟩

/-- No request line is shorter than `GET / HTTP/1.1`. -/
theorem RequestLine.text_length (l : RequestLine) : 14 ≤ l.text.length := by
  have hverb : 3 ≤ l.verb.length := by
    rw [length_of_sameNoCase l.verb_eq]
    cases l.method <;> decide
  have hgap := List.length_pos_of_ne_nil l.gap_ne
  have htarget := List.length_pos_of_ne_nil l.target_ne
  have hgap' := List.length_pos_of_ne_nil l.gap'_ne
  have hversion : l.version.length = 8 := length_of_sameNoCase l.version_eq
  simp only [RequestLine.text, List.length_append]
  omega

end NoLine

/-! ## Up to the target -/

section Words

variable {c d : HttpConnection} {p : Ptr} {mem s t w : List UInt8}

theorem parseMethod_eq {verb : List UInt8} (h : c.StringAt p mem verb) :
    c.parseMethod p = some (methodOf verb) := by
  unfold parseMethod methodOf
  rw [h.strcasecmp (by decide), h.strcasecmp (by decide)]
  by_cases hget : SameNoCase verb (ascii "GET")
  · simp [hget]
  · by_cases hpost : SameNoCase verb (ascii "POST")
    · simp [hget, hpost]
    · simp [hget, hpost]

theorem setStorage_withUrl (c : HttpConnection) (p : Ptr) (mem : List UInt8) (url : Ptr) :
    ({ c with url := url } : HttpConnection).setStorage p mem =
      { c.setStorage p mem with url := url } := by
  cases p <;> rfl

theorem setStorage_method (c : HttpConnection) (p : Ptr) (mem : List UInt8) :
    (c.setStorage p mem).method = c.method := by
  cases p <;> rfl

/-- Without a blank there is no method. -/
theorem parseRequestLine_no_blank (h : c.StringAt p mem s) (hs : ∀ x ∈ s, x ∉ blanks) :
    c.parseRequestLine p = some ({ c with url := .null }, .BAD_REQUEST) := by
  unfold parseRequestLine
  rw [h.search_none hs]
  rfl

/-- The connection behind the first word. -/
theorem parseRequestLine_word {verb : List UInt8} {x : UInt8}
    (h : c.StringAt p mem (verb ++ x :: s)) (hverb : ∀ y ∈ verb, y ∉ blanks) (hx : x ∈ blanks) :
    ∃ mem', SameOutside p.off (p.off + verb.length + 1) mem mem' ∧
      (c.setStorage p mem').StringAt (p.add (verb.length + 1)) mem' s ∧
      c.parseRequestLine p = match methodOf verb with
        | none => some ({ c.setStorage p mem' with url := p.add (verb.length + 1) }, .BAD_REQUEST)
        | some method => parseVersion
          { c.setStorage p mem' with url := p.add (verb.length + 1), method := method } := by
  have hurl : ({ c with url := p.add verb.length } : HttpConnection).StringAt p mem
      (verb ++ x :: s) := ⟨h.storage, h.string⟩
  obtain ⟨mem', hnul, hword, hrest, hsame⟩ := hurl.putNul
  rw [setStorage_withUrl] at hnul hword hrest
  refine ⟨mem', hsame, ⟨hrest.storage, hrest.string⟩, ?_⟩
  unfold parseRequestLine
  rw [h.search_found hverb hx]
  show (if p.add verb.length = .null then _ else _) = _
  rw [if_neg (Ptr.add_ne_null h.ne_null _)]
  show (putNul _ (p.add verb.length) 0).bind _ = _
  rw [hnul, Option.bind_some, Ptr.add_add]
  have hmethod : ({ c.setStorage p mem' with url := p.add (verb.length + 1) } :
      HttpConnection).parseMethod p = some (methodOf verb) :=
    parseMethod_eq ⟨hword.storage, hword.string⟩
  show (parseMethod { c.setStorage p mem' with url := p.add (verb.length + 1) } p).bind _ = _
  refine (congrArg (fun method => Option.bind method _) hmethod).trans ?_
  cases methodOf verb <;> rfl

theorem setStorage_withVersion (c : HttpConnection) (p : Ptr) (mem : List UInt8)
    (url version : Ptr) :
    ({ c with url := url, version := version } : HttpConnection).setStorage p mem =
      { c.setStorage p mem with url := url, version := version } := by
  cases p <;> rfl

/-- Without a blank behind the target there is no version. -/
theorem parseVersion_no_blank (h : d.StringAt d.url mem (w ++ t)) (hw : ∀ x ∈ w, x ∈ blanks)
    (ht : ∀ x ∈ t, x ∉ blanks) :
    d.parseVersion =
      some ({ d with url := d.url.add w.length, version := .null }, .BAD_REQUEST) := by
  have htarget : ({ d with url := d.url.add w.length } : HttpConnection).StringAt
      (d.url.add w.length) mem t := ⟨h.add.storage, h.add.string⟩
  unfold parseVersion
  rw [h.skipBlanks hw fun x hx => ht x (List.mem_of_mem_head? hx)]
  show (search { d with url := d.url.add w.length } (d.url.add w.length) _).bind _ = _
  rw [htarget.search_none ht]
  rfl

/-- The connection behind the target, where `version_` is compared. -/
theorem parseVersion_word {u : List UInt8} {x : UInt8}
    (h : d.StringAt d.url mem (w ++ (u ++ x :: (s ++ t)))) (hw : ∀ y ∈ w, y ∈ blanks)
    (hu : u ≠ []) (hblank : ∀ y ∈ u, y ∉ blanks) (hx : x ∈ blanks) (hs : ∀ y ∈ s, y ∈ blanks)
    (ht : ∀ y ∈ t.head?, y ∉ blanks) :
    ∃ mem' version,
      SameOutside (d.url.off + w.length) (d.url.off + w.length + u.length + 1) mem mem' ∧
      (d.setStorage d.url mem').StringAt (d.url.add w.length) mem' u ∧
      d.parseVersion =
        if SameNoCase t (ascii "HTTP/1.1") then
          parseUrl { d.setStorage d.url mem' with url := d.url.add w.length, version := version }
        else
          some ({ d.setStorage d.url mem' with url := d.url.add w.length, version := version },
            .BAD_REQUEST) := by
  -- where each of the calls looks: at the target, behind it, and at the version
  have hhead : ∀ y ∈ (u ++ x :: (s ++ t)).head?, y ∉ blanks := by
    intro y hy
    rw [List.head?_append_of_ne_nil _ hu] at hy
    exact hblank y (List.mem_of_mem_head? hy)
  have hnull := Ptr.add_ne_null (Ptr.add_ne_null h.ne_null w.length) u.length
  have hfound : ({ d with url := d.url.add w.length } : HttpConnection).StringAt
      (d.url.add w.length) mem (u ++ x :: (s ++ t)) := ⟨h.add.storage, h.add.string⟩
  have hblanks : StringAt
      { d with url := d.url.add w.length, version := (d.url.add w.length).add u.length }
      (d.url.add w.length) mem (u ++ x :: (s ++ t)) := ⟨h.add.storage, h.add.string⟩
  obtain ⟨mem', hnul, hword, hrest, hsame⟩ := hblanks.putNul
  rw [setStorage_withVersion, setStorage_add] at hnul hword hrest
  rw [Ptr.add_off h.ne_null] at hsame
  refine ⟨mem', ((d.url.add w.length).add (u.length + 1)).add s.length, hsame,
    ⟨hword.storage, hword.string⟩, ?_⟩
  -- the calls one by one, as the source makes them
  unfold parseVersion
  rw [h.skipBlanks hw hhead]
  show (search { d with url := d.url.add w.length } (d.url.add w.length) _).bind _ = _
  rw [hfound.search_found hblank hx]
  show (if (d.url.add w.length).add u.length = .null then _ else _) = _
  rw [if_neg hnull]
  show (putNul _ ((d.url.add w.length).add u.length) 0).bind _ = _
  rw [hnul, Option.bind_some, Ptr.add_add _ u.length 1]
  show (skipBlanks _ ((d.url.add w.length).add (u.length + 1))).bind _ = _
  rw [hrest.skipBlanks hs ht, Option.bind_some]
  have hversion : StringAt
      { d.setStorage d.url mem' with
        url := d.url.add w.length
        version := ((d.url.add w.length).add (u.length + 1)).add s.length }
      (((d.url.add w.length).add (u.length + 1)).add s.length) mem' t :=
    ⟨hrest.add.storage, hrest.add.string⟩
  show (reading _ _ (strcasecmp · · (ascii "HTTP/1.1"))).bind _ = _
  rw [hversion.strcasecmp (by decide), Option.bind_some]
  by_cases hsameCase : SameNoCase t (ascii "HTTP/1.1")
  · rw [if_pos hsameCase, decide_eq_true hsameCase]
    rfl
  · rw [if_neg hsameCase, decide_eq_false hsameCase]
    rfl

/-- The connection that `parseUrl` gets: `url_` is at the target. -/
structure AtTarget (p : Ptr) (mem : List UInt8) (l : RequestLine) (d : HttpConnection)
    (mem' : List UInt8) : Prop where
  string : d.StringAt d.url mem' l.target
  same : SameOutside p.off (p.off + l.text.length) mem mem'
  method : d.method = l.method
  url : ∃ k, d.url = p.add k ∧ k + l.target.length + l.gap'.length + 8 = l.text.length

/-- The text is a request line, and its target is left to `parseUrl`, or it is rejected. -/
theorem parseRequestLine_cases (h : c.StringAt p mem s) :
    (∃ (l : RequestLine) (d : HttpConnection) (mem' : List UInt8),
      l.text = s ∧ AtTarget p mem l d mem' ∧ c.parseRequestLine p = d.parseUrl) ∨
    (¬ ∃ l : RequestLine, l.text = s) ∧ ∃ d mem',
      c.parseRequestLine p = some (d, .BAD_REQUEST) ∧ d.storage p = some mem' ∧
      SameOutside p.off (p.off + s.length) mem mem' := by
  -- the first word
  rcases exists_first blanks s with hs | ⟨verb, x, s₁, rfl, hverb, hx⟩
  · exact .inr ⟨not_line_no_blank hs, _, mem, parseRequestLine_no_blank h hs, h.storage,
      .refl _ _ _⟩
  obtain ⟨mem₁, hsame₁, hrest, hrun⟩ := parseRequestLine_word h hverb hx
  cases hmethod : methodOf verb with
  | none =>
    rw [hmethod] at hrun
    refine .inr ⟨not_line_verb hverb hx hmethod, _, mem₁, hrun,
      storage_setStorage h.ne_null mem₁, hsame₁.mono (Nat.le_refl _) ?_⟩
    rw [List.length_append, List.length_cons]
    omega
  | some method =>
    rw [hmethod] at hrun
    have hurl : StringAt
        { c.setStorage p mem₁ with url := p.add (verb.length + 1), method := method }
        (p.add (verb.length + 1)) mem₁ s₁ := ⟨hrest.storage, hrest.string⟩
    have hoff : (p.add (verb.length + 1)).off = p.off + (verb.length + 1) :=
      Ptr.add_off h.ne_null _
    -- the blanks, and the target behind them
    obtain ⟨w, t, rfl, hw, ht⟩ := exists_span blanks s₁
    rcases exists_first blanks t with hno | ⟨u, y, t₁, rfl, hu, hy⟩
    · refine .inr ⟨not_line_no_version hverb hx hw hno, _, mem₁,
        hrun.trans (parseVersion_no_blank hurl hw hno), storage_setStorage h.ne_null mem₁,
        hsame₁.mono (Nat.le_refl _) ?_⟩
      rw [List.length_append, List.length_cons]
      omega
    -- the blanks behind the target, and the version
    obtain ⟨g, v, rfl, hg, hv⟩ := exists_span blanks t₁
    have hne : u ≠ [] := by
      rintro rfl
      exact ht y rfl hy
    obtain ⟨mem₂, version, hsame₂, htarget, hrun₂⟩ := parseVersion_word hurl hw hne hu hy hg hv
    have hsame : SameOutside p.off (p.off + (verb ++ x :: (w ++ (u ++ y :: (g ++ v)))).length)
        mem mem₂ := by
      apply (hsame₁.mono (Nat.le_refl _) _).trans (hsame₂.mono _ _)
      · simp only [List.length_append, List.length_cons]
        omega
      · rw [hoff]
        omega
      · simp only [List.length_append, List.length_cons, hoff]
        omega
    by_cases hversion : SameNoCase v (ascii "HTTP/1.1")
    · left
      rw [if_pos hversion] at hrun₂
      obtain ⟨l, htext, hlmethod, hltarget, hgap⟩ :=
        line_of_words hmethod hx hw hne hu hy hg hversion
      refine ⟨l, _, mem₂, htext, ⟨⟨htarget.storage, ?_⟩, ?_, ?_, ?_⟩, hrun.trans hrun₂⟩
      · rw [hltarget]
        exact htarget.string
      · rw [htext]
        exact hsame
      · rw [hlmethod]
        exact setStorage_method _ _ mem₂
      · refine ⟨verb.length + 1 + w.length, Ptr.add_add _ _ _, ?_⟩
        have hlen : v.length = 8 := length_of_sameNoCase hversion
        rw [hltarget, hgap, htext]
        simp only [List.length_append, List.length_cons]
        omega
    · rw [if_neg hversion] at hrun₂
      have hstorage := htarget.storage
      rw [storage_add, storage_add] at hstorage
      exact .inr ⟨not_line_version hverb hx hw hne hu hy hg hv hversion, _, mem₂,
        hrun.trans hrun₂, hstorage, hsame⟩

/-- Of a text that is no request line, the handler has the same method and url wherever the text
stands. -/
theorem rejected_by_text (hline : ¬ ∃ l : RequestLine, l.text = s) (method : Method) :
    ∃ (method' : Method) (url : Option (List UInt8)), ∀ (c : HttpConnection) (mem : List UInt8),
      c.StringAt p mem s → c.method = method → ∃ d,
        c.parseRequestLine p = some (d, .BAD_REQUEST) ∧ d.method = method' ∧
        d.deref d.url = url := by
  -- the first word
  rcases exists_first blanks s with hs | ⟨verb, x, s₁, rfl, hverb, hx⟩
  · exact ⟨method, none, fun c mem h hc => ⟨_, parseRequestLine_no_blank h hs, hc, rfl⟩⟩
  cases hmethod : methodOf verb with
  | none =>
    refine ⟨method, some s₁, fun c mem h hc => ?_⟩
    obtain ⟨mem₁, -, hrest, hrun⟩ := parseRequestLine_word h hverb hx
    rw [hmethod] at hrun
    refine ⟨_, hrun, (setStorage_method c p mem₁).trans hc, ?_⟩
    exact deref_eq_some.mpr ⟨mem₁, hrest.storage, hrest.string⟩
  | some verbMethod =>
    have hrun : ∀ {c : HttpConnection} {mem : List UInt8}, c.StringAt p mem (verb ++ x :: s₁) →
        ∃ d : HttpConnection, ∃ mem₁, d.StringAt d.url mem₁ s₁ ∧ d.method = verbMethod ∧
          c.parseRequestLine p = d.parseVersion := by
      intro c mem h
      obtain ⟨mem₁, -, hrest, hrun⟩ := parseRequestLine_word h hverb hx
      rw [hmethod] at hrun
      exact ⟨_, mem₁, ⟨hrest.storage, hrest.string⟩, rfl, hrun⟩
    -- the blanks, and the target behind them
    obtain ⟨w, t, rfl, hw, ht⟩ := exists_span blanks s₁
    rcases exists_first blanks t with hno | ⟨u, y, t₁, rfl, hu, hy⟩
    · refine ⟨verbMethod, some t, fun c mem h _ => ?_⟩
      obtain ⟨d, mem₁, hd, hdmethod, hdrun⟩ := hrun h
      refine ⟨_, hdrun.trans (parseVersion_no_blank hd hw hno), hdmethod, ?_⟩
      exact deref_eq_some.mpr ⟨mem₁, hd.add.storage, hd.add.string⟩
    -- the blanks behind the target, and the version
    obtain ⟨g, v, rfl, hg, hv⟩ := exists_span blanks t₁
    have hne : u ≠ [] := by
      rintro rfl
      exact ht y rfl hy
    have hversion : ¬ SameNoCase v (ascii "HTTP/1.1") := fun hversion =>
      have ⟨l, htext, _⟩ := line_of_words hmethod hx hw hne hu hy hg hversion
      hline ⟨l, htext⟩
    refine ⟨verbMethod, some u, fun c mem h _ => ?_⟩
    obtain ⟨d, mem₁, hd, hdmethod, hdrun⟩ := hrun h
    obtain ⟨mem₂, version, -, htarget, hrun₂⟩ := parseVersion_word hd hw hne hu hy hg hv
    rw [if_neg hversion] at hrun₂
    refine ⟨_, hdrun.trans hrun₂, (setStorage_method d d.url mem₂).trans hdmethod, ?_⟩
    exact deref_eq_some.mpr ⟨mem₂, htarget.storage, htarget.string⟩

end Words

/-! ## The target

A target begins with `/`, with one of the schemes, or with something else. The source compares
with both schemes one after the other, also where `strchr` has returned a null pointer for the
first. -/

section Target

variable {c d : HttpConnection} {mem s u path scheme word host q : List UInt8}

theorem HasPath.slash (h : HasPath u path) : ∃ q, path = slash :: q := by
  cases h with
  | path q => exact ⟨q, rfl⟩
  | remote q => exact ⟨q, rfl⟩

theorem stripScheme_null (h : c.url = .null) : c.stripScheme scheme = none := by
  rw [stripScheme, HttpConnection.reading, h]
  rfl

theorem stripScheme_other (h : c.StringAt c.url mem s) (hzero : 0 ∉ scheme)
    (hs : ¬ SameNoCase (s.take scheme.length) scheme) : c.stripScheme scheme = some c := by
  rw [stripScheme, h.strncasecmp hzero, decide_eq_false hs]
  rfl

theorem no_slash (hhost : slash ∉ host) : ∀ y ∈ host, y ∉ [slash] := by
  intro y hy hmem
  rw [List.mem_singleton.mp hmem] at hy
  exact hhost hy

theorem stripScheme_slash (h : c.StringAt c.url mem (word ++ (host ++ slash :: q)))
    (hzero : 0 ∉ scheme) (hword : SameNoCase word scheme) (hhost : slash ∉ host) :
    c.stripScheme scheme = some { c with url := c.url.add (word.length + host.length) } := by
  have hlen := length_of_sameNoCase hword
  rw [stripScheme, h.strncasecmp hzero, ← hlen, List.take_left, decide_eq_true hword]
  show (c.search (c.url.add word.length) (strpbrk · · [slash])).bind _ = _
  rw [h.add.search_found (no_slash hhost) (List.mem_singleton_self _), Ptr.add_add]
  rfl

theorem stripScheme_unslashed (h : c.StringAt c.url mem (word ++ host)) (hzero : 0 ∉ scheme)
    (hword : SameNoCase word scheme) (hhost : slash ∉ host) :
    c.stripScheme scheme = some { c with url := .null } := by
  have hlen := length_of_sameNoCase hword
  rw [stripScheme, h.strncasecmp hzero, ← hlen, List.take_left, decide_eq_true hword]
  show (c.search (c.url.add word.length) (strpbrk · · [slash])).bind _ = _
  rw [h.add.search_none (no_slash hhost)]
  rfl

/-- A word with the scheme `https://` does not begin with `http://`. -/
theorem not_http_of_https (hword : SameNoCase word (ascii "https://")) (s : List UInt8) :
    ¬ SameNoCase ((word ++ s).take (ascii "http://").length) (ascii "http://") := by
  intro h
  have hlen := length_of_sameNoCase hword
  have htake : (word ++ s).take (ascii "http://").length = word.take 7 :=
    List.take_append_of_le_length (by rw [hlen]; decide)
  rw [htake] at h
  have hmap : (word.take 7).map toLower = ((ascii "https://").map toLower).take 7 := by
    rw [List.map_take, show word.map toLower = (ascii "https://").map toLower from hword]
  exact absurd (hmap.symm.trans h) (by decide)

/-- A path does not begin with a scheme. -/
theorem not_scheme_of_slash (hscheme : scheme.head? = some 104) (q : List UInt8) :
    ¬ SameNoCase ((slash :: q).take scheme.length) scheme := by
  cases scheme with
  | nil => cases hscheme
  | cons x t =>
    cases hscheme
    intro h
    exact absurd (List.cons.inj h).1 (by decide)

theorem scheme_cases (h : SameNoCase (u.take scheme.length) scheme) : Unslashed scheme u ∨
    ∃ word host q, u = word ++ (host ++ slash :: q) ∧ SameNoCase word scheme ∧ slash ∉ host := by
  have hu := List.take_append_drop scheme.length u
  rcases exists_first [slash] (u.drop scheme.length) with hno | ⟨host, x, q, hrest, hhost, hx⟩
  · left
    refine ⟨_, _, hu.symm, h, fun hmem => hno slash hmem (List.mem_singleton_self _)⟩
  · right
    rw [List.mem_singleton.mp hx] at hrest
    rw [hrest] at hu
    exact ⟨_, host, q, hu.symm, h, fun hmem => hhost slash hmem (List.mem_singleton_self _)⟩

/-- The kinds of targets. -/
theorem target_cases (u : List UInt8) : (∃ path, HasPath u path) ∨
    Unslashed (ascii "http://") u ∨ Unslashed (ascii "https://") u ∨
    (u.head? ≠ some slash ∧ ¬ SameNoCase (u.take (ascii "http://").length) (ascii "http://") ∧
      ¬ SameNoCase (u.take (ascii "https://").length) (ascii "https://")) := by
  by_cases hhttp : SameNoCase (u.take (ascii "http://").length) (ascii "http://")
  · rcases scheme_cases hhttp with hno | ⟨word, host, q, rfl, hword, hhost⟩
    · exact .inr (.inl hno)
    · exact .inl ⟨_, .remote q (.inl hword) hhost⟩
  by_cases hhttps : SameNoCase (u.take (ascii "https://").length) (ascii "https://")
  · rcases scheme_cases hhttps with hno | ⟨word, host, q, rfl, hword, hhost⟩
    · exact .inr (.inr (.inl hno))
    · exact .inl ⟨_, .remote q (.inr hword) hhost⟩
  by_cases hslash : u.head? = some slash
  · cases u with
    | nil => cases hslash
    | cons x q =>
      cases hslash
      exact .inl ⟨_, .path q⟩
  · exact .inr (.inr (.inr ⟨hslash, hhttp, hhttps⟩))

/-- The null pointer that `strchr` returned is compared with the other scheme. -/
theorem parseUrl_unslashed_http (h : d.StringAt d.url mem u) (hu : Unslashed (ascii "http://") u) :
    d.parseUrl = none := by
  obtain ⟨word, host, rfl, hword, hhost⟩ := hu
  have hnull : stripScheme { d with url := .null } (ascii "https://") = none := stripScheme_null rfl
  rw [parseUrl, stripScheme_unslashed h (by decide) hword hhost, Option.bind_eq_bind,
    Option.bind_some, hnull]
  rfl

theorem parseUrl_unslashed_https (h : d.StringAt d.url mem u)
    (hu : Unslashed (ascii "https://") u) :
    d.parseUrl = some ({ d with url := .null }, .BAD_REQUEST) := by
  obtain ⟨word, host, rfl, hword, hhost⟩ := hu
  rw [parseUrl, stripScheme_other h (by decide) (not_http_of_https hword host)]
  show (stripScheme d (ascii "https://")).bind _ = _
  rw [stripScheme_unslashed h (by decide) hword hhost]
  rfl

theorem parseUrl_other (h : d.StringAt d.url mem u) (hslash : u.head? ≠ some slash)
    (hhttp : ¬ SameNoCase (u.take (ascii "http://").length) (ascii "http://"))
    (hhttps : ¬ SameNoCase (u.take (ascii "https://").length) (ascii "https://")) :
    d.parseUrl = some (d, .BAD_REQUEST) := by
  rw [parseUrl, stripScheme_other h (by decide) hhttp]
  show (stripScheme d (ascii "https://")).bind _ = _
  rw [stripScheme_other h (by decide) hhttps, Option.bind_some, if_neg h.ne_null]
  show (d.charAt d.url 0).bind _ = _
  rw [h.charAt_zero, Option.bind_some, if_pos]
  intro hfirst
  cases u with
  | nil => exact absurd hfirst (by decide)
  | cons x q => exact hslash (congrArg some hfirst)

/-- The schemes and the host are passed over. -/
theorem strip_path (h : d.StringAt d.url mem u) (hu : HasPath u path) : ∃ k e,
    k + path.length = u.length ∧ d.stripScheme (ascii "http://") = some e ∧
      e.stripScheme (ascii "https://") = some { d with url := d.url.add k } ∧
      StringAt { d with url := d.url.add k } (d.url.add k) mem path := by
  cases hu with
  | path q =>
    refine ⟨0, d, Nat.zero_add _, ?_, ?_, ?_⟩
    · exact stripScheme_other h (by decide) (not_scheme_of_slash rfl q)
    · rw [Ptr.add_zero]
      exact stripScheme_other h (by decide) (not_scheme_of_slash rfl q)
    · rw [Ptr.add_zero]
      exact h
  | @remote word host q hword hhost =>
    have hat : StringAt { d with url := d.url.add (word.length + host.length) }
        (d.url.add (word.length + host.length)) mem (slash :: q) := by
      have hadd := h.add.add
      rw [Ptr.add_add] at hadd
      exact ⟨hadd.storage, hadd.string⟩
    have hlen : word.length + host.length + (slash :: q).length =
        (word ++ (host ++ slash :: q)).length := by
      rw [List.length_append, List.length_append, Nat.add_assoc]
    rcases hword with hword | hword
    · refine ⟨_, _, hlen, stripScheme_slash h (by decide) hword hhost, ?_, hat⟩
      exact stripScheme_other hat (by decide) (not_scheme_of_slash rfl q)
    · refine ⟨_, _, hlen, ?_, stripScheme_slash h (by decide) hword hhost, hat⟩
      exact stripScheme_other h (by decide) (not_http_of_https hword _)

/-- `url_` is left at the path, and the path `/` gets the page appended. -/
theorem parseUrl_path (h : d.StringAt d.url mem u) (hu : HasPath u path) : ∃ k,
    k + path.length = u.length ∧
      StringAt { d with url := d.url.add k } (d.url.add k) mem path ∧
      d.parseUrl = ((if path.length = 1 then
          writing { d with url := d.url.add k } (d.url.add k) (strcat · · (ascii "judge.html"))
        else some { d with url := d.url.add k }).bind fun c =>
          some ({ c with checkState := .CHECK_STATE_HEADER }, .NO_REQUEST)) := by
  obtain ⟨k, e, hk, hhttp, hhttps, hat⟩ := strip_path h hu
  obtain ⟨q, rfl⟩ := hu.slash
  have hfirst : ¬ (slash :: q).head?.getD 0 ≠ slash := not_not.mpr rfl
  refine ⟨k, hk, hat, ?_⟩
  rw [parseUrl, hhttp, Option.bind_eq_bind, Option.bind_some, hhttps, Option.bind_eq_bind,
    Option.bind_some, if_neg hat.ne_null]
  show (charAt _ _ 0).bind _ = _
  rw [hat.charAt_zero, Option.bind_some, if_neg hfirst]
  show (reading _ _ _).bind _ = _
  rw [hat.reading, strlen_eq hat.string]
  rfl

/-- What `parseUrl` has made of a path: `url_` is at the path, or at the page for it. -/
structure Decided (d : HttpConnection) (mem u path : List UInt8) (e : HttpConnection)
    (mem' : List UInt8) : Prop where
  string : e.StringAt e.url mem' (pageOf path)
  storage : e.storage d.url = some mem'
  same : SameOutside d.url.off (d.url.off + u.length + 11) mem mem'
  method : e.method = d.method
  checkState : e.checkState = .CHECK_STATE_HEADER

theorem parseUrl_decided (h : d.StringAt d.url mem u) (hu : HasPath u path)
    (hroom : path = [slash] → d.url.off + u.length + 11 ≤ mem.length) :
    ∃ e mem', d.parseUrl = some (e, .NO_REQUEST) ∧ Decided d mem u path e mem' := by
  obtain ⟨k, hk, hat, hrun⟩ := parseUrl_path h hu
  by_cases hpath : path = [slash]
  · -- the page is written over what follows the url
    subst hpath
    have hoff : (d.url.add k).off = d.url.off + k := Ptr.add_off h.ne_null k
    have hfits : (d.url.add k).off + [slash].length + (ascii "judge.html" ++ [0]).length ≤
        mem.length := by
      have hlen : (ascii "judge.html" ++ [0]).length = 11 := rfl
      rw [List.length_singleton] at hk ⊢
      rw [hoff, hlen]
      have := hroom rfl
      omega
    rw [if_pos List.length_singleton, hat.writing (strcat_eq hat.string hfits),
      setStorage_withUrl, setStorage_add] at hrun
    -- the url has become longer, and nothing else is written
    have hstorage := storage_setStorage (c := d) h.ne_null
      (overwrite mem ((d.url.add k).off + [slash].length) (ascii "judge.html" ++ [0]))
    refine ⟨_, _, hrun, ⟨(storage_add _ _ _).trans hstorage, ?_⟩, hstorage, ?_,
      setStorage_method _ _ _, rfl⟩
    · have hat' : cString mem (d.url.add k).off = some ([slash] ++ []) := hat.string
      exact cString_overwrite hat' (by decide) hfits
    · have hlen : (ascii "judge.html" ++ [0]).length = 11 := rfl
      rw [List.length_singleton] at hk
      apply SameOutside.overwrite _ _ hfits
      · rw [hoff]
        omega
      · rw [hoff, hlen, List.length_singleton]
        omega
  · -- any other path is longer than a byte and stays as it is
    have hlen : path.length ≠ 1 := by
      obtain ⟨q, rfl⟩ := hu.slash
      intro hlen
      rw [List.length_cons, Nat.add_eq_right, List.length_eq_zero_iff] at hlen
      exact hpath (congrArg _ hlen)
    rw [if_neg hlen] at hrun
    refine ⟨_, mem, hrun, ⟨hat.storage, ?_⟩, h.storage, .refl _ _ _, rfl, rfl⟩
    rw [pageOf, if_neg hpath]
    exact hat.string

theorem parseUrl_no_room (h : d.StringAt d.url mem u) (hu : HasPath u [slash])
    (hroom : mem.length < d.url.off + u.length + 11) : d.parseUrl = none := by
  obtain ⟨k, hk, hat, hrun⟩ := parseUrl_path h hu
  have hfits : mem.length <
      (d.url.add k).off + [slash].length + (ascii "judge.html" ++ [0]).length := by
    have hlen : (ascii "judge.html" ++ [0]).length = 11 := rfl
    rw [List.length_singleton] at hk ⊢
    rw [Ptr.add_off h.ne_null, hlen]
    omega
  have hnone : writing { d with url := d.url.add k } (d.url.add k)
      (strcat · · (ascii "judge.html")) = none := by
    rw [writing_eq hat.storage, strcat_none hat.string hfits]
    rfl
  rw [hrun, if_pos List.length_singleton, hnone]
  rfl

end Target

/-! ## The grammar decided -/

/-- The text is accepted exactly when it is in the grammar, with the method and the path of it. -/
def Decides (c : HttpConnection) (text : Ptr) (s : List UInt8) : Prop :=
  ∃ d ret, c.parseRequestLine text = some (d, ret) ∧
    (∀ (l : RequestLine) (path : List UInt8), l.text = s → HasPath l.target path →
      ret = .NO_REQUEST ∧ d.checkState = .CHECK_STATE_HEADER ∧ d.method = l.method ∧
        d.deref d.url = some (pageOf path)) ∧
    ((¬ ∃ (l : RequestLine) (path : List UInt8), l.text = s ∧ HasPath l.target path) →
      ret = .BAD_REQUEST)

/-- The text is a request line for a host without a path. -/
def LacksPath (s : List UInt8) : Prop :=
  ∃ l : RequestLine, l.text = s ∧ Unslashed (ascii "http://") l.target

/-- Where the page takes one byte more than the line has, that byte is in the storage too. -/
def HasRoom (c : HttpConnection) (text : Ptr) (s : List UInt8) : Prop :=
  ∀ l : RequestLine, l.text = s → HasPath l.target [slash] → l.gap'.length = 1 →
    (c.charAt text (s.length + 1)).isSome

section Decision

variable {c d : HttpConnection} {text : Ptr} {mem mem' s path : List UInt8} {l : RequestLine}
  {ret : HttpCode}

theorem reaches_target (h : c.StringAt text mem s) (hl : l.text = s) :
    ∃ d mem', AtTarget text mem l d mem' ∧ c.parseRequestLine text = d.parseUrl := by
  rcases parseRequestLine_cases h with ⟨l', d, mem', hl', hat, hrun⟩ | ⟨hno, -⟩
  · rw [RequestLine.text_injective (hl.trans hl'.symm)]
    exact ⟨d, mem', hat, hrun⟩
  · exact absurd ⟨l, hl⟩ hno

/-- The room behind the target, counted from the end of the text. -/
theorem AtTarget.room (hat : AtTarget text mem l d mem') (hnull : text ≠ .null) :
    d.url.off + l.target.length + l.gap'.length + 8 = text.off + l.text.length := by
  obtain ⟨k, hk, hlen⟩ := hat.url
  rw [hk, Ptr.add_off hnull]
  omega

theorem accepts (h : c.StringAt text mem l.text) (hroom : HasRoom c text l.text)
    (hpath : HasPath l.target path) : ∃ d mem₁ mem₂ e,
      AtTarget text mem l d mem₁ ∧ Decided d mem₁ l.target path e mem₂ ∧
      c.parseRequestLine text = some (e, .NO_REQUEST) := by
  obtain ⟨d, mem₁, hat, hrun⟩ := reaches_target h rfl
  have hcount := hat.room h.ne_null
  have hlt := cString_lt h.string
  have hfits : path = [slash] → d.url.off + l.target.length + 11 ≤ mem₁.length := by
    rintro rfl
    rw [hat.same.length]
    have hgap := List.length_pos_of_ne_nil l.gap'_ne
    by_cases hone : l.gap'.length = 1
    · -- the byte behind the NUL
      obtain ⟨x, hx⟩ := Option.isSome_iff_exists.mp (hroom l rfl hpath hone)
      obtain ⟨mem', hmem, hx⟩ := Option.bind_eq_some_iff.mp hx
      cases h.storage.symm.trans hmem
      obtain ⟨hin, -⟩ := List.getElem?_eq_some_iff.mp hx
      omega
    · omega
  obtain ⟨e, mem₂, hdone, hdecided⟩ := parseUrl_decided hat.string hpath hfits
  exact ⟨d, mem₁, mem₂, e, hat, hdecided, hrun.trans hdone⟩

/-- The url of a text that is accepted is the path of its target. -/
theorem accepted_url (h : c.deref text = some s)
    (hrun : c.parseRequestLine text = some (d, .NO_REQUEST)) :
    ∃ (l : RequestLine) (path : List UInt8), l.text = s ∧ HasPath l.target path ∧
      d.deref d.url = some (pageOf path) := by
  obtain ⟨mem, hat⟩ := deref_eq_some.mp h
  rcases parseRequestLine_cases hat with ⟨l, e, mem', rfl, he, heq⟩ | ⟨-, e, mem', hbad, -⟩
  · rw [heq] at hrun
    rcases target_cases l.target with ⟨path, hpath⟩ | hhttp | hhttps | ⟨hfirst, hhttp, hhttps⟩
    · by_cases hroom : path = [slash] → e.url.off + l.target.length + 11 ≤ mem'.length
      · obtain ⟨e', mem₂, hdone, hdecided⟩ := parseUrl_decided he.string hpath hroom
        cases hdone.symm.trans hrun
        exact ⟨l, path, rfl, hpath, deref_eq_some.mpr ⟨mem₂, hdecided.string⟩⟩
      · obtain ⟨rfl, hroom⟩ := Classical.not_imp.mp hroom
        rw [parseUrl_no_room he.string hpath (by omega)] at hrun
        cases hrun
    · rw [parseUrl_unslashed_http he.string hhttp] at hrun
      cases hrun
    · rw [parseUrl_unslashed_https he.string hhttps] at hrun
      cases hrun
    · rw [parseUrl_other he.string hfirst hhttp hhttps] at hrun
      cases hrun
  · cases hbad.symm.trans hrun

/-- A text that is rejected is not in the grammar. -/
theorem rejected (h : c.StringAt text mem s) (hroom : HasRoom c text s)
    (hrun : c.parseRequestLine text = some (d, .BAD_REQUEST)) : Decides c text s := by
  refine ⟨d, _, hrun, ?_, fun _ => rfl⟩
  rintro l path rfl hpath
  obtain ⟨-, -, -, e, -, -, hdone⟩ := accepts h hroom hpath
  cases hrun.symm.trans hdone

theorem decides (hat : c.StringAt text mem s) (hslash : ¬ LacksPath s)
    (hroom : HasRoom c text s) : Decides c text s := by
  rcases parseRequestLine_cases hat with ⟨l, d, mem', rfl, hd, hrun⟩ | ⟨hno, d, mem', hrun, -⟩
  · rcases target_cases l.target with ⟨path, hpath⟩ | hhttp | hhttps | ⟨hfirst, hhttp, hhttps⟩
    · obtain ⟨d, -, -, e, -, -, hdone⟩ := accepts hat hroom hpath
      refine ⟨e, _, hdone, ?_, fun hno => absurd ⟨l, path, rfl, hpath⟩ hno⟩
      intro l' path' hl hpath'
      cases RequestLine.text_injective hl
      obtain ⟨d', mem₁, mem₂, e', hd', hdecided, hdone'⟩ := accepts hat hroom hpath'
      cases hdone.symm.trans hdone'
      exact ⟨rfl, hdecided.checkState, hdecided.method.trans hd'.method,
        deref_eq_some.mpr ⟨mem₂, hdecided.string⟩⟩
    · exact absurd ⟨l, rfl, hhttp⟩ hslash
    · exact rejected hat hroom (hrun.trans (parseUrl_unslashed_https hd.string hhttps))
    · exact rejected hat hroom (hrun.trans (parseUrl_other hd.string hfirst hhttp hhttps))
  · exact rejected hat hroom hrun

/-- **The grammar is decided.** For every text in the storage of the pointer, whatever stands
around it: `parseRequestLine` returns, accepts the text exactly when it is in the grammar, with
its method and its path, and rejects every other text, if and only if the text is not a request
line for an `http://` host without a path and there is room for the page. -/
theorem parseRequestLine_decides_iff (h : c.deref text = some s) :
    Decides c text s ↔ ¬ LacksPath s ∧ HasRoom c text s := by
  obtain ⟨mem, hat⟩ := deref_eq_some.mp h
  constructor
  · rintro ⟨d, ret, hrun, -, -⟩
    constructor
    · rintro ⟨l, hl, htarget⟩
      obtain ⟨e, mem', he, heq⟩ := reaches_target hat hl
      rw [heq, parseUrl_unslashed_http he.string htarget] at hrun
      cases hrun
    · intro l hl hpath hone
      obtain ⟨e, mem', he, heq⟩ := reaches_target hat hl
      have hcount := he.room hat.ne_null
      by_contra hroom
      -- without that byte the page does not fit
      have hend : mem.length ≤ text.off + (s.length + 1) := by
        rw [charAt, hat.storage] at hroom
        exact List.getElem?_eq_none_iff.mp (Option.not_isSome_iff_eq_none.mp hroom)
      have hnone : e.parseUrl = none := by
        apply parseUrl_no_room he.string hpath
        rw [he.same.length]
        subst hl
        omega
      rw [heq, hnone] at hrun
      cases hrun
  · rintro ⟨hslash, hroom⟩
    exact decides hat hslash hroom

/-- The storage of a connection that has received one line, as `parseLine` leaves it. -/
def received (line : String) : HttpConnection :=
  passedOver (ascii line ++ [0, 0])

/-- `GET / HTTP/1.1`, where the page takes both bytes of the terminator. -/
theorem parseRequestLine_decides_iff_root :
    Decides (received "GET / HTTP/1.1") (.input 8) (ascii "GET / HTTP/1.1") := by
  have hrun : ((received "GET / HTTP/1.1").parseRequestLine (.input 8)).isSome := by
    decide +kernel
  refine (parseRequestLine_decides_iff (by decide +kernel)).mpr ⟨?_, fun l _ _ _ => ?_⟩
  · rintro ⟨l, hl, htarget⟩
    have hat : (received "GET / HTTP/1.1").StringAt (.input 8)
        (List.replicate 8 0 ++ (ascii "GET / HTTP/1.1" ++ [0, 0])) (ascii "GET / HTTP/1.1") :=
      ⟨rfl, by decide +kernel⟩
    obtain ⟨e, mem', he, heq⟩ := reaches_target hat hl
    rw [heq, parseUrl_unslashed_http he.string htarget] at hrun
    cases hrun
  · decide +kernel

/-- A host without a path: `strncasecmp` gets the null pointer. -/
theorem request_line_without_path :
    (received "GET http://host HTTP/1.1").deref (.input 8) =
        some (ascii "GET http://host HTTP/1.1") ∧
      (received "GET http://host HTTP/1.1").parseRequestLine (.input 8) = none ∧
      ¬ Decides (received "GET http://host HTTP/1.1") (.input 8)
        (ascii "GET http://host HTTP/1.1") := by
  have hnone : (received "GET http://host HTTP/1.1").parseRequestLine (.input 8) = none := by
    decide +kernel
  refine ⟨by decide +kernel, hnone, ?_⟩
  rintro ⟨d, ret, hrun, -⟩
  rw [hnone] at hrun
  cases hrun

/-! ## What is written

The NULs behind the words stand where blanks were. The page for `/` is written over what follows
the url, and ends one byte behind the NUL of the text at most. -/

theorem parseUrl_sameOutside {u : List UInt8} (h : d.StringAt d.url mem u) :
    Ensures (fun r => ∃ mem', r.1.storage d.url = some mem' ∧
      SameOutside d.url.off (d.url.off + u.length + 11) mem mem') d.parseUrl := by
  intro r hr
  rcases target_cases u with ⟨path, hpath⟩ | hhttp | hhttps | ⟨hfirst, hhttp, hhttps⟩
  · by_cases hroom : path = [slash] → d.url.off + u.length + 11 ≤ mem.length
    · obtain ⟨e, mem', hdone, hdecided⟩ := parseUrl_decided h hpath hroom
      cases hdone.symm.trans hr
      exact ⟨mem', hdecided.storage, hdecided.same⟩
    · obtain ⟨rfl, hroom⟩ := Classical.not_imp.mp hroom
      rw [parseUrl_no_room h hpath (by omega)] at hr
      cases hr
  · rw [parseUrl_unslashed_http h hhttp] at hr
    cases hr
  · rw [parseUrl_unslashed_https h hhttps] at hr
    cases hr
    exact ⟨mem, h.storage, .refl _ _ _⟩
  · rw [parseUrl_other h hfirst hhttp hhttps] at hr
    cases hr
    exact ⟨mem, h.storage, .refl _ _ _⟩

/-- Behind the NUL of the text one byte may change. -/
theorem parseRequestLine_sameOutside (h : c.StringAt text mem s) :
    Ensures (fun r => ∃ mem', r.1.storage text = some mem' ∧
      SameOutside text.off (text.off + s.length + 2) mem mem') (c.parseRequestLine text) := by
  intro r hr
  rcases parseRequestLine_cases h with ⟨l, d, mem₁, rfl, hd, hrun⟩ | ⟨-, d, mem', hrun, hmem, hsame⟩
  · obtain ⟨mem₂, hstorage, hsame⟩ := parseUrl_sameOutside hd.string r (hrun.symm.trans hr)
    have hcount := hd.room h.ne_null
    have hgap := List.length_pos_of_ne_nil l.gap'_ne
    obtain ⟨k, hk, -⟩ := hd.url
    have hoff : d.url.off = text.off + k := by rw [hk, Ptr.add_off h.ne_null]
    rw [hk, storage_add] at hstorage
    refine ⟨mem₂, hstorage, (hd.same.mono (Nat.le_refl _) ?_).trans (hsame.mono ?_ ?_)⟩
    all_goals omega
  · cases hrun.symm.trans hr
    exact ⟨mem', hmem, hsame.mono (Nat.le_refl _) (by omega)⟩

/-- The text up to its first NUL. -/
theorem exists_string (h : c.storage text = some mem) {pre txt rest : List UInt8}
    (hoff : text.off = pre.length) (hmem : mem = pre ++ (txt ++ 0 :: rest)) :
    ∃ s, s.length ≤ txt.length ∧ c.StringAt text mem s := by
  have hdrop : mem.drop text.off = txt ++ 0 :: rest := by rw [hmem, hoff, List.drop_left]
  rcases exists_first [0] txt with hno | ⟨a, x, b, rfl, ha, hx⟩
  · refine ⟨txt, Nat.le_refl _, h, cString_eq_some_iff.mpr ⟨?_, rest, hdrop⟩⟩
    exact fun hzero => hno 0 hzero (List.mem_singleton_self _)
  · rw [List.mem_singleton.mp hx, List.append_assoc, List.cons_append] at hdrop
    refine ⟨a, ?_, h, cString_eq_some_iff.mpr ⟨?_, _, hdrop⟩⟩
    · rw [List.length_append]
      omega
    · exact fun hzero => ha 0 hzero (List.mem_singleton_self _)

/-- A run leaves the bytes in front of the text and behind its terminator. -/
theorem parseRequestLine_line {pre txt rest : List UInt8} (hoff : text.off = pre.length)
    (hat : c.StringAt text (pre ++ (txt ++ [0, 0] ++ rest)) s) (hlen : s.length ≤ txt.length)
    (hrun : c.parseRequestLine text = some (d, ret)) :
    ∃ line url version method state, line.length = txt.length + 2 ∧
      d = { c.setStorage text (pre ++ (line ++ rest)) with
        url := url, version := version, method := method, checkState := state } := by
  obtain ⟨mem₁, url, version, method, state, -, hd⟩ := (parseRequestLine_spec c text _ hrun).1
  obtain ⟨mem₂, hstorage, hsame⟩ := parseRequestLine_sameOutside hat _ hrun
  -- the storage in the two descriptions of the result is the same
  have hsame₁ : mem₁ = mem₂ := by
    have hset := storage_setStorage (c := c) hat.ne_null mem₁
    rw [show d = _ from hd] at hstorage
    exact Option.some.inj (hset.symm.trans hstorage)
  subst hsame₁
  have hmiddle : SameOutside pre.length (pre.length + (txt ++ [0, 0]).length)
      (pre ++ (txt ++ [0, 0] ++ rest)) mem₁ := by
    rw [hoff] at hsame
    apply hsame.mono (Nat.le_refl _)
    rw [List.length_append]
    show _ ≤ pre.length + (txt.length + 2)
    omega
  obtain ⟨line, hline, rfl⟩ := hmiddle.exists_middle
  rw [List.length_append] at hline
  exact ⟨line, url, version, method, state, hline, hd⟩

/-- **Writes stay in the line.** For every text between arbitrary bytes, its terminator replaced by
two NULs: the text is one on which `parseRequestLine` gets a null pointer, or it returns, the
bytes of the text and the two NULs are replaced by as many, and no other byte of the two buffers
changes. -/
theorem parseRequestLine_writes_line {pre txt rest : List UInt8} (hoff : text.off = pre.length)
    (hmem : c.storage text = some (pre ++ (txt ++ [0, 0] ++ rest))) :
    (∃ s, c.deref text = some s ∧ LacksPath s) ∨
    ∃ line url version method state ret, line.length = txt.length + 2 ∧
      c.parseRequestLine text = some ({ c.setStorage text (pre ++ (line ++ rest)) with
        url := url, version := version, method := method, checkState := state }, ret) := by
  obtain ⟨s, hlen, hat⟩ := exists_string hmem hoff
    (show _ = pre ++ (txt ++ 0 :: (0 :: rest)) by rw [List.append_assoc]; rfl)
  by_cases hslash : LacksPath s
  · exact .inl ⟨s, deref_eq_some.mpr ⟨_, hat⟩, hslash⟩
  · right
    have hroom : HasRoom c text s := by
      intro l _ _ _
      rw [charAt, hmem]
      apply Option.isSome_iff_ne_none.mpr
      intro hnone
      have hend := List.getElem?_eq_none_iff.mp hnone
      simp only [List.length_append, List.length_cons, List.length_nil] at hend
      omega
    obtain ⟨d, ret, hrun, -⟩ := decides hat hslash hroom
    obtain ⟨line, url, version, method, state, hline, rfl⟩ :=
      parseRequestLine_line hoff hat hlen hrun
    exact ⟨line, url, version, method, state, ret, hline, hrun⟩

/-- The shortest request line for `/`: the last NUL of the page is the second of the line. -/
theorem parseRequestLine_writes_line_root :
    (∃ s, (received "GET / HTTP/1.1").deref (.input 8) = some s ∧ LacksPath s) ∨
    ∃ line url version method state ret, line.length = (ascii "GET / HTTP/1.1").length + 2 ∧
      (received "GET / HTTP/1.1").parseRequestLine (.input 8) =
        some ({ (received "GET / HTTP/1.1").setStorage (.input 8)
          (List.replicate 8 0 ++ (line ++ [])) with
          url := url, version := version, method := method, checkState := state }, ret) :=
  parseRequestLine_writes_line
    (show (Ptr.input 8).off = (List.replicate 8 (0 : UInt8)).length from rfl)
    (show _ = some (List.replicate 8 0 ++ (ascii "GET / HTTP/1.1" ++ [0, 0] ++ [])) from rfl)

end Decision

end HttpConnection

end HttpWebserver
