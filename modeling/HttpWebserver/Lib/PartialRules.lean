import Mathlib.Data.Option.Basic

/-!
# Rules for partial programs

Rules for programs in the `Option` monad that follow the shape of the program.

* `Ensures P x`: the result of `x`, if there is one, satisfies `P`. What a program with one run
  guarantees is proved with `ensures_bind`, `ensures_ite` and `ensures_some`.
* `Option.Rel r x y`: both results are undefined, or both are defined and related by `r`. A
  property of two runs from related states is proved side by side: `rel_bind` passes related
  results on to related continuations, `rel_bind_same` a result the runs share, and `rel_ite`
  is a test they decide alike.
-/

namespace PartialRules

variable {α β γ δ : Type*}

/-! ## One run

Partial correctness of a computation that may be undefined. -/

/-- The result of `x`, if there is one, satisfies `P`. -/
def Ensures (P : α → Prop) (x : Option α) : Prop := ∀ a, x = some a → P a

section OneRun

variable {P : α → Prop} {Q : β → Prop}

theorem ensures_some {a : α} (h : P a) : Ensures P (some a) := fun b hb => by
  cases hb
  exact h

theorem ensures_bind {x : Option α} {f : α → Option β} (h : Ensures P x)
    (hf : ∀ a, P a → Ensures Q (f a)) : Ensures Q (x.bind f) := fun b hb => by
  obtain ⟨a, ha, hb⟩ := Option.bind_eq_some_iff.mp hb
  exact hf a (h a ha) b hb

/-- A result that is only passed on. -/
theorem ensures_bind_eq {x : Option α} {f : α → Option β}
    (hf : ∀ a, x = some a → Ensures Q (f a)) : Ensures Q (x.bind f) := fun b hb => by
  obtain ⟨a, ha, hb⟩ := Option.bind_eq_some_iff.mp hb
  exact hf a ha b hb

theorem ensures_ite {p : Prop} [Decidable p] {x y : Option α} (hpos : p → Ensures P x)
    (hneg : ¬ p → Ensures P y) : Ensures P (if p then x else y) := by
  by_cases h : p
  · rw [if_pos h]
    exact hpos h
  · rw [if_neg h]
    exact hneg h

theorem ensures_mono {P' : α → Prop} {x : Option α} (h : Ensures P x) (hp : ∀ a, P a → P' a) :
    Ensures P' x := fun a ha => hp a (h a ha)

end OneRun

/-! ## Two runs

`Option.Rel` relates two computations: undefined together, or with related results. There is
one rule for each way of composing them, so that two runs of one program are compared along
its text. -/

variable {r : α → β → Prop} {s : γ → δ → Prop}

theorem rel_some {a : α} {b : β} (h : r a b) : Option.Rel r (some a) (some b) := .some h

theorem rel_bind {x : Option α} {y : Option β} {f : α → Option γ} {g : β → Option δ}
    (h : Option.Rel r x y) (hfg : ∀ a b, r a b → Option.Rel s (f a) (g b)) :
    Option.Rel s (x.bind f) (y.bind g) := by
  cases h with
  | none => exact .none
  | some h => exact hfg _ _ h

/-- A program beside itself. -/
theorem rel_refl {r : α → α → Prop} {x : Option α} (h : ∀ a, r a a) : Option.Rel r x x := by
  cases x with
  | none => exact .none
  | some a => exact .some (h a)

theorem rel_mono {r' : α → β → Prop} {x : Option α} {y : Option β} (h : Option.Rel r x y)
    (hr : ∀ a b, r a b → r' a b) : Option.Rel r' x y := by
  cases h with
  | none => exact .none
  | some h => exact .some (hr _ _ h)

theorem rel_cases {x : Option α} {y : Option β} (h : Option.Rel r x y) :
    x = none ∧ y = none ∨ ∃ a b, x = some a ∧ y = some b ∧ r a b := by
  cases h with
  | none => exact .inl ⟨rfl, rfl⟩
  | some h => exact .inr ⟨_, _, rfl, rfl, h⟩

/-- The two runs share a result. -/
theorem rel_bind_same {x : Option α} {f : α → Option γ} {g : α → Option δ}
    (hfg : ∀ a, x = some a → Option.Rel s (f a) (g a)) : Option.Rel s (x.bind f) (x.bind g) := by
  cases x with
  | none => exact .none
  | some a => exact hfg a rfl

/-- A test the two runs decide alike. -/
theorem rel_ite {p q : Prop} [Decidable p] [Decidable q] {x x' : Option γ} {y y' : Option δ}
    (h : p ↔ q) (hpos : p → Option.Rel s x y) (hneg : ¬ p → Option.Rel s x' y') :
    Option.Rel s (if p then x else x') (if q then y else y') := by
  by_cases hp : p
  · rw [if_pos hp, if_pos (h.mp hp)]
    exact hpos hp
  · rw [if_neg hp, if_neg (fun hq => hp (h.mpr hq))]
    exact hneg hp

end PartialRules
