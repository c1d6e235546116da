import Mathlib.Data.List.Basic

/-!
# Quoted literals

A literal of a language that writes strings between two quotes. In the literal a quote is written
twice, and an escape sequence is the escape mark with one more symbol.

* `Quoting`: the marks, and what the escape sequences stand for;
* `read`: the literal at the beginning of a text, with its value and what follows it;
* `read_length`: a value is shorter than its literal, whatever is written in it;
* `read_literal`: a string whose marks are written twice is read back.
-/

namespace QuotedLiteral

/-- A way to write literals. An escape sequence of two symbols stands for at most two. -/
structure Quoting (α : Type*) where
  quote : α
  escape : α
  distinct : quote ≠ escape
  unescape : α → List α
  unescape_length : ∀ x, (unescape x).length ≤ 2
  unescape_escape : unescape escape = [escape]

variable {α : Type*} [DecidableEq α]

/-- The rest of a literal behind its first quote: its value, and what follows the literal. -/
def readBody (q : Quoting α) : List α → Option (List α × List α)
  | [] => none
  | [x] => if x = q.quote then some ([], []) else none
  | x :: y :: s =>
    if x = q.quote then
      -- a second quote belongs to the value
      if y = q.quote then (readBody q s).map fun r => (q.quote :: r.1, r.2)
      else some ([], y :: s)
    else if x = q.escape then (readBody q s).map fun r => (q.unescape y ++ r.1, r.2)
    else (readBody q (y :: s)).map fun r => (x :: r.1, r.2)

/-- The literal at the beginning of a text. -/
def read (q : Quoting α) : List α → Option (List α × List α)
  | [] => none
  | x :: s => if x = q.quote then readBody q s else none

/-- The symbols of a value with the marks written twice. -/
def encode (q : Quoting α) (value : List α) : List α :=
  value.flatMap fun x => if x = q.quote ∨ x = q.escape then [x, x] else [x]

/-- The literal for a value. -/
def literal (q : Quoting α) (value : List α) : List α :=
  q.quote :: (encode q value ++ [q.quote])

section Read

variable {q : Quoting α} {x y : α} {s value rest : List α}

theorem readBody_doubled (s : List α) : readBody q (q.quote :: q.quote :: s) =
    (readBody q s).map fun r => (q.quote :: r.1, r.2) := by
  rw [readBody, if_pos rfl, if_pos rfl]

theorem readBody_quote (hrest : rest.head? ≠ some q.quote) :
    readBody q (q.quote :: rest) = some ([], rest) := by
  cases rest with
  | nil => exact if_pos rfl
  | cons y s =>
    have hy : y ≠ q.quote := fun hy => hrest (congrArg some hy)
    rw [readBody, if_pos rfl, if_neg hy]

theorem readBody_escape (y : α) (s : List α) : readBody q (q.escape :: y :: s) =
    (readBody q s).map fun r => (q.unescape y ++ r.1, r.2) := by
  rw [readBody, if_neg (Ne.symm q.distinct), if_pos rfl]

theorem readBody_plain (hquote : x ≠ q.quote) (hescape : x ≠ q.escape) (y : α) (s : List α) :
    readBody q (x :: y :: s) = (readBody q (y :: s)).map fun r => (x :: r.1, r.2) := by
  rw [readBody, if_neg hquote, if_neg hescape]

/-- A symbol of the value takes at least one of the literal, and the quote at its end one more. -/
theorem readBody_length (h : readBody q s = some (value, rest)) :
    value.length + rest.length + 1 ≤ s.length := by
  induction s using readBody.induct q generalizing value with
  | case1 => cases h
  | case2 =>
    rw [readBody_quote (show ([] : List α).head? ≠ some q.quote from nofun)] at h
    cases h
    exact Nat.le_refl _
  | case3 x hx =>
    rw [readBody, if_neg hx] at h
    cases h
  | case4 s ih =>
    rw [readBody_doubled] at h
    obtain ⟨⟨value', rest'⟩, hread, heq⟩ := Option.map_eq_some_iff.mp h
    simp only [Prod.mk.injEq] at heq
    obtain ⟨rfl, rfl⟩ := heq
    have hle := ih hread
    simp only [List.length_cons]
    omega
  | case5 y s hy =>
    have hhead : (y :: s).head? ≠ some q.quote := fun hhead => hy (Option.some.inj hhead)
    rw [readBody_quote hhead] at h
    cases h
    simp only [List.length_cons, List.length_nil]
    omega
  | case6 y s _ ih =>
    -- an escape sequence of two symbols
    rw [readBody_escape] at h
    obtain ⟨⟨value', rest'⟩, hread, heq⟩ := Option.map_eq_some_iff.mp h
    simp only [Prod.mk.injEq] at heq
    obtain ⟨rfl, rfl⟩ := heq
    have hle := ih hread
    have htwo := q.unescape_length y
    simp only [List.length_cons, List.length_append]
    omega
  | case7 x y s hquote hescape ih =>
    rw [readBody_plain hquote hescape] at h
    obtain ⟨⟨value', rest'⟩, hread, heq⟩ := Option.map_eq_some_iff.mp h
    simp only [Prod.mk.injEq] at heq
    obtain ⟨rfl, rfl⟩ := heq
    have hle := ih hread
    simp only [List.length_cons] at hle ⊢
    omega

theorem read_length (h : read q s = some (value, rest)) :
    value.length + rest.length + 2 ≤ s.length := by
  cases s with
  | nil => cases h
  | cons x s =>
    by_cases hx : x = q.quote
    · rw [read, if_pos hx] at h
      have hle := readBody_length h
      rw [List.length_cons]
      omega
    · rw [read, if_neg hx] at h
      cases h

theorem readBody_encode (hrest : rest.head? ≠ some q.quote) (value : List α) :
    readBody q (encode q value ++ q.quote :: rest) = some (value, rest) := by
  induction value with
  | nil => exact readBody_quote hrest
  | cons x value ih =>
    rw [encode, List.flatMap_cons, ← encode]
    by_cases hquote : x = q.quote
    · subst hquote
      rw [if_pos (.inl rfl), List.append_assoc]
      show readBody q (q.quote :: q.quote :: (encode q value ++ q.quote :: rest)) = _
      rw [readBody_doubled, ih]
      rfl
    · by_cases hescape : x = q.escape
      · subst hescape
        rw [if_pos (.inr rfl), List.append_assoc]
        show readBody q (q.escape :: q.escape :: (encode q value ++ q.quote :: rest)) = _
        rw [readBody_escape, ih, q.unescape_escape]
        rfl
      · rw [if_neg (not_or.mpr ⟨hquote, hescape⟩), List.append_assoc, List.singleton_append]
        obtain ⟨y, t, ht⟩ : ∃ y t, encode q value ++ q.quote :: rest = y :: t :=
          List.exists_cons_of_ne_nil (by simp)
        rw [ht] at ih ⊢
        rw [readBody_plain hquote hescape, ih]
        rfl

/-- A literal is read back, where no quote follows it. -/
theorem read_literal (hrest : rest.head? ≠ some q.quote) (value : List α) :
    read q (literal q value ++ rest) = some (value, rest) := by
  rw [literal, List.cons_append, List.append_assoc, read, if_pos rfl]
  exact readBody_encode hrest value

/-- A value without the marks is its own encoding. -/
theorem encode_plain (hquote : q.quote ∉ value) (hescape : q.escape ∉ value) :
    encode q value = value := by
  induction value with
  | nil => rfl
  | cons x value ih =>
    obtain ⟨hx, hvalue⟩ := not_or.mp (fun h => hquote (List.mem_cons.mpr h))
    obtain ⟨hx', hvalue'⟩ := not_or.mp (fun h => hescape (List.mem_cons.mpr h))
    rw [encode, List.flatMap_cons, ← encode, ih hvalue hvalue',
      if_neg (not_or.mpr ⟨Ne.symm hx, Ne.symm hx'⟩)]
    rfl

end Read

end QuotedLiteral
