import Mathlib.Data.List.Basic

/-!
# Lines that end with two marks

A text over any alphabet is cut into lines, each of which ends with the two marks `cr`, `lf`. A
line is malformed where one of the marks stands alone.

* `scan` is the verdict on the first line of a text, with what a scanner leaves of the text;
* `scan_left`: what it leaves of an open line stands for the whole line, whatever comes next. A
  scanner may therefore forget what it has passed over;
* `scan_append_complete`, `scan_append_malformed`: other verdicts do not change any more;
* `behind`: what follows the first lines of a text.
-/

namespace LineFraming

inductive Verdict where
  | complete
  | malformed
  | incomplete
deriving DecidableEq, Repr

variable {α : Type*} [DecidableEq α]

/-- The mark `cr`, and what stands behind it. -/
def scanCr (cr lf : α) : List α → Verdict × List α
  | [] => (.incomplete, [cr])
  | y :: t => if y = lf then (.complete, t) else (.malformed, cr :: y :: t)

/-- The first line, up to the first of the two marks. A complete line is consumed with its marks,
of another one what stands in front of the mark is. -/
def scan (cr lf : α) : List α → Verdict × List α
  | [] => (.incomplete, [])
  | x :: s =>
    if x = cr then scanCr cr lf s
    else if x = lf then (.malformed, x :: s)
    else scan cr lf s

/-- What follows the first `k` lines. -/
def behind (cr lf : α) : Nat → List α → Option (List α)
  | 0, s => some s
  | k + 1, s =>
    match scan cr lf s with
    | (.complete, t) => behind cr lf k t
    | _ => none

section Scan

variable {cr lf x y : α} {s t : List α}

theorem scan_cr_nil : scan cr lf [cr] = (.incomplete, [cr]) := by
  rw [scan, if_pos rfl, scanCr]

theorem scan_cr_lf (t : List α) : scan cr lf (cr :: lf :: t) = (.complete, t) := by
  rw [scan, if_pos rfl, scanCr, if_pos rfl]

theorem scan_cr_other (hy : y ≠ lf) (t : List α) :
    scan cr lf (cr :: y :: t) = (.malformed, cr :: y :: t) := by
  rw [scan, if_pos rfl, scanCr, if_neg hy]

theorem scan_lf (hne : lf ≠ cr) (t : List α) : scan cr lf (lf :: t) = (.malformed, lf :: t) := by
  rw [scan, if_neg hne, if_pos rfl]

theorem scan_plain (hcr : x ≠ cr) (hlf : x ≠ lf) (s : List α) :
    scan cr lf (x :: s) = scan cr lf s := by
  rw [scan, if_neg hcr, if_neg hlf]

/-- The rule for the cases of a text: it is empty, begins with a mark, or with another byte. -/
theorem scan_cases (cr lf : α) {P : List α → Prop} (nil : P [])
    (open_cr : P [cr]) (line : ∀ t, P (cr :: lf :: t)) (bad_cr : ∀ y t, y ≠ lf → P (cr :: y :: t))
    (bad_lf : ∀ t, P (lf :: t)) (plain : ∀ x s, x ≠ cr → x ≠ lf → P s → P (x :: s))
    (s : List α) : P s := by
  induction s with
  | nil => exact nil
  | cons x s ih =>
    by_cases hcr : x = cr
    · subst hcr
      cases s with
      | nil => exact open_cr
      | cons y t =>
        by_cases hy : y = lf
        · subst hy
          exact line t
        · exact bad_cr y t hy
    · by_cases hlf : x = lf
      · subst hlf
        exact bad_lf s
      · exact plain x s hcr hlf ih

/-! ## More of the text

What a scan says of a text it says of every longer one, except where it has reached the end: a
line that is not complete is scanned again with more text behind it. -/

theorem scan_append_complete (hne : lf ≠ cr) (more : List α)
    (h : scan cr lf s = (.complete, t)) : scan cr lf (s ++ more) = (.complete, t ++ more) := by
  induction s using scan_cases cr lf with
  | nil => cases h
  | open_cr =>
    rw [scan_cr_nil] at h
    cases h
  | line t =>
    rw [scan_cr_lf] at h
    cases h
    exact scan_cr_lf (t ++ more)
  | bad_cr y t hy =>
    rw [scan_cr_other hy] at h
    cases h
  | bad_lf t =>
    rw [scan_lf hne] at h
    cases h
  | plain x s hcr hlf ih =>
    rw [scan_plain hcr hlf] at h
    rw [List.cons_append, scan_plain hcr hlf]
    exact ih h

theorem scan_append_malformed (hne : lf ≠ cr) (more : List α)
    (h : scan cr lf s = (.malformed, t)) : scan cr lf (s ++ more) = (.malformed, t ++ more) := by
  induction s using scan_cases cr lf with
  | nil => cases h
  | open_cr =>
    rw [scan_cr_nil] at h
    cases h
  | line t =>
    rw [scan_cr_lf] at h
    cases h
  | bad_cr y t hy =>
    rw [scan_cr_other hy] at h
    cases h
    exact scan_cr_other hy (t ++ more)
  | bad_lf t =>
    rw [scan_lf hne] at h
    cases h
    exact scan_lf hne (t ++ more)
  | plain x s hcr hlf ih =>
    rw [scan_plain hcr hlf] at h
    rw [List.cons_append, scan_plain hcr hlf]
    exact ih h

/-- What is left of a line that is not complete stands for the whole of it. -/
theorem scan_left (hne : lf ≠ cr) (h : (scan cr lf s).1 ≠ .complete) (more : List α) :
    scan cr lf ((scan cr lf s).2 ++ more) = scan cr lf (s ++ more) := by
  induction s using scan_cases cr lf with
  | nil => rfl
  | open_cr => rw [scan_cr_nil]
  | line t =>
    rw [scan_cr_lf] at h
    exact absurd rfl h
  | bad_cr y t hy => rw [scan_cr_other hy]
  | bad_lf t => rw [scan_lf hne]
  | plain x s hcr hlf ih =>
    rw [scan_plain hcr hlf] at h ⊢
    rw [ih h, List.cons_append, scan_plain hcr hlf]

/-- A complete line has its two marks. -/
theorem scan_length (hne : lf ≠ cr) (h : scan cr lf s = (.complete, t)) :
    t.length + 2 ≤ s.length := by
  induction s using scan_cases cr lf with
  | nil => cases h
  | open_cr =>
    rw [scan_cr_nil] at h
    cases h
  | line t =>
    rw [scan_cr_lf] at h
    cases h
    exact Nat.le_refl _
  | bad_cr y t hy =>
    rw [scan_cr_other hy] at h
    cases h
  | bad_lf t =>
    rw [scan_lf hne] at h
    cases h
  | plain x s hcr hlf ih =>
    rw [scan_plain hcr hlf] at h
    exact Nat.le_succ_of_le (ih h)

/-! ## Several lines

`behind` takes off one line at a time. More text at the end leaves the first lines as they are. -/

theorem behind_append (hne : lf ≠ cr) (more : List α) {k : Nat}
    (h : behind cr lf k s = some t) : behind cr lf k (s ++ more) = some (t ++ more) := by
  induction k generalizing s with
  | zero =>
    cases h
    rfl
  | succ k ih =>
    rw [behind] at h
    split at h
    · next u hscan =>
      rw [behind, scan_append_complete hne more hscan]
      exact ih h
    · cases h

/-- One line more. -/
theorem behind_succ {k : Nat} (h : behind cr lf k s = some t) {u : List α}
    (hscan : scan cr lf t = (.complete, u)) : behind cr lf (k + 1) s = some u := by
  induction k generalizing s with
  | zero =>
    cases h
    rw [behind, hscan]
    rfl
  | succ k ih =>
    rw [behind] at h
    split at h
    · next v hfirst =>
      rw [behind, hfirst]
      exact ih h
    · cases h

end Scan

end LineFraming
