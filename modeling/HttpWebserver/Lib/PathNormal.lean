import Mathlib.Data.List.Induction

/-!
# Normal forms of paths

A path is a list of components, and its normal form says where it ends: so many levels up, and
then down through a list of names. `.` and repeated separators do not count.

* `walk` follows components from a place that is given in normal form;
* **`walk_eq`** — the place a walk ends at, from the normal form of the walk by itself;
* `Below`: a path ends at another one or below it;
* **`below_append_iff`** — when an appended path ends below the path in front of it: where it
  goes up into that path, it comes back down by the same names.

Symbolic links are not followed.
-/

namespace PathNormal

/-! ## Walks

A walk is a list of components. It ends at a place relative to where it begins: so many levels up,
and then down by names. -/

inductive Component (α : Type*) where
  | up
  | name (x : α)

/-- A normal form: `ups` times `..`, and then the names. -/
structure Place (α : Type*) where
  ups : Nat
  names : List α

namespace Place

variable {α : Type*}

/-- The place a path begins at. -/
def here : Place α := ⟨0, []⟩

/-- One component further. Above the root directory there is nothing to go up to. -/
def step (absolute : Bool) (p : Place α) : Component α → Place α
  | .name x => { p with names := p.names ++ [x] }
  | .up =>
    match p.names with
    | [] => if absolute then p else { p with ups := p.ups + 1 }
    | x :: xs => { p with names := (x :: xs).dropLast }

def walk (absolute : Bool) (p : Place α) (cs : List (Component α)) : Place α :=
  cs.foldl (step absolute) p

end Place

/-- The normal form of a walk by itself. -/
def climb {α : Type*} (cs : List (Component α)) : Place α := Place.here.walk false cs

section Walk

variable {α : Type*} {absolute : Bool} {p : Place α} {cs ds : List (Component α)}

theorem walk_append : p.walk absolute (cs ++ ds) = (p.walk absolute cs).walk absolute ds :=
  List.foldl_append

theorem step_up_nil (h : p.names = []) :
    p.step absolute .up = if absolute then p else { p with ups := p.ups + 1 } := by
  rw [Place.step, h]

theorem step_up_ne_nil (h : p.names ≠ []) :
    p.step absolute .up = { p with names := p.names.dropLast } := by
  cases hp : p.names with
  | nil => exact absurd hp h
  | cons x xs => rw [Place.step, hp]

/-- **Where a walk ends.** The levels that the walk goes up are taken from the names of the place;
what is left of them goes above it. -/
theorem walk_eq (absolute : Bool) (p : Place α) (cs : List (Component α)) :
    p.walk absolute cs =
      { ups := p.ups + if absolute then 0 else (climb cs).ups - p.names.length
        names := p.names.take (p.names.length - (climb cs).ups) ++ (climb cs).names } := by
  -- the walk is extended at its end
  induction cs using List.reverseRecOn with
  | nil =>
    show p = _
    rw [show climb ([] : List (Component α)) = Place.here from rfl]
    simp [Place.here]
  | append_singleton cs c ih =>
    have hclimb : climb (cs ++ [c]) = (climb cs).step false c := walk_append
    have hwalk : p.walk absolute (cs ++ [c]) = (p.walk absolute cs).step absolute c := walk_append
    rw [hwalk, hclimb, ih]
    cases c with
    | name x => simp [Place.step]
    | up =>
      by_cases hnames : (climb cs).names = []
      · rw [step_up_nil (p := climb cs) hnames, if_neg Bool.false_ne_true, hnames]
        simp only [List.append_nil]
        by_cases hlen : p.names.length ≤ (climb cs).ups
        · -- the walk is at the top of the place, or above it
          have htop : p.names.take (p.names.length - (climb cs).ups) = [] := by
            rw [Nat.sub_eq_zero_of_le hlen, List.take_zero]
          rw [step_up_nil htop, htop, Nat.sub_eq_zero_of_le (Nat.le_succ_of_le hlen),
            List.take_zero]
          cases absolute with
          | false =>
            simp only [Bool.false_eq_true, if_false, Place.mk.injEq, and_true]
            omega
          | true => rfl
        · -- the last name of the place that was left goes
          have hne : p.names.take (p.names.length - (climb cs).ups) ≠ [] := by
            intro hnil
            have := congrArg List.length hnil
            rw [List.length_take, List.length_nil] at this
            omega
          have hdrop : (p.names.take (p.names.length - (climb cs).ups)).dropLast =
              p.names.take (p.names.length - ((climb cs).ups + 1)) := by
            rw [List.dropLast_eq_take, List.take_take, List.length_take]
            congr 1
            omega
          have hups : (climb cs).ups - p.names.length = 0 := by omega
          have hups' : (climb cs).ups + 1 - p.names.length = 0 := by omega
          rw [step_up_ne_nil hne, hdrop, hups, hups']
      · rw [step_up_ne_nil (p := climb cs) hnames, step_up_ne_nil]
        · simp only [List.dropLast_append_of_ne_nil hnames]
        · exact List.append_ne_nil_of_right_ne_nil _ hnames

end Walk

/-! ## Paths

A path is cut into components at its separators. Paths are concatenated as texts, and the walk of
the second continues at the place where the walk of the first ends. -/

/-- `'/'`. -/
def separator : UInt8 := 47

/-- `'.'`. -/
def dot : UInt8 := 46

/-- A component of a path, unless it is empty or `.`. -/
def component (s : List UInt8) : Option (Component (List UInt8)) :=
  if s = [] ∨ s = [dot] then none
  else if s = [dot, dot] then some .up
  else some (.name s)

def components (path : List UInt8) : List (Component (List UInt8)) :=
  (path.splitOn separator).filterMap component

def isAbsolute (path : List UInt8) : Bool := path.head? == some separator

def normalize (path : List UInt8) : Place (List UInt8) :=
  Place.here.walk (isAbsolute path) (components path)

/-- The normal form of `path` is the one of `root`, or below it. -/
structure Below (root path : List UInt8) : Prop where
  absolute : isAbsolute path = isAbsolute root
  ups : (normalize path).ups = (normalize root).ups
  names : (normalize root).names <+: (normalize path).names

/-- Where `path` by itself goes up into the names of `root`, it comes back down by them, and it
does not go above the directory a relative `root` begins in. -/
structure Returns (root path : List UInt8) : Prop where
  ups : isAbsolute root ∨ (climb (components path)).ups ≤ (normalize root).names.length
  names : (normalize root).names.drop
      ((normalize root).names.length - (climb (components path)).ups) <+:
    (climb (components path)).names

section Paths

variable {root path : List UInt8}

theorem components_cons (path : List UInt8) :
    components (separator :: path) = components path := by
  have hsplit : (separator :: path).splitOn separator = [] :: path.splitOn separator :=
    List.splitOn_append_cons_self [] path
  rw [components, hsplit]
  rfl

theorem components_append (root path : List UInt8) :
    components (root ++ separator :: path) = components root ++ components (separator :: path) := by
  rw [components_cons, components, List.splitOn_append_cons_self, List.filterMap_append]
  rfl

theorem isAbsolute_append (hroot : root ≠ []) : isAbsolute (root ++ path) = isAbsolute root := by
  cases root with
  | nil => exact absurd rfl hroot
  | cons x root => rfl

/-- The path in front is normalised first. -/
theorem normalize_append (hroot : root ≠ []) :
    normalize (root ++ separator :: path) =
      (normalize root).walk (isAbsolute root) (components (separator :: path)) := by
  rw [normalize, isAbsolute_append hroot, components_append, walk_append]
  rfl

/-- **An appended path.** It ends below the path it is appended to, if and only if it returns. -/
theorem below_append_iff (hpath : path.head? = some separator) :
    Below root (root ++ path) ↔ root ≠ [] ∧ Returns root path := by
  obtain ⟨path, rfl⟩ : ∃ p, path = separator :: p := List.head?_eq_some_iff.mp hpath
  by_cases hroot : root = []
  · subst hroot
    constructor
    · intro h
      exact absurd h.absolute (by simp [isAbsolute])
    · rintro ⟨hroot, -⟩
      exact absurd rfl hroot
  have hnormal : normalize (root ++ separator :: path) = _ := normalize_append hroot
  rw [walk_eq] at hnormal
  -- no further up: the names of the root absorb every `..` that `path` does not absorb itself
  have hups : (normalize (root ++ separator :: path)).ups = (normalize root).ups ↔
      (isAbsolute root ∨
        (climb (components (separator :: path))).ups ≤ (normalize root).names.length) := by
    rw [hnormal]
    cases isAbsolute root with
    | true => simp
    | false =>
      simp only [Bool.false_eq_true, if_false, false_or]
      omega
  -- and what is left of the root's names begins what `path` puts there
  have hnames : (normalize root).names <+: (normalize (root ++ separator :: path)).names ↔
      (normalize root).names.drop ((normalize root).names.length -
        (climb (components (separator :: path))).ups) <+:
      (climb (components (separator :: path))).names := by
    rw [hnormal]
    conv_lhs => lhs; rw [← List.take_append_drop ((normalize root).names.length -
      (climb (components (separator :: path))).ups) (normalize root).names]
    exact List.prefix_append_right_inj _
  constructor
  · intro h
    exact ⟨hroot, hups.mp h.ups, hnames.mp h.names⟩
  · rintro ⟨-, h⟩
    exact ⟨isAbsolute_append hroot, hups.mpr h.ups, hnames.mpr h.names⟩

/-- A path that does not go up returns to every path. -/
theorem Returns.of_ups (h : (climb (components path)).ups = 0) : Returns root path := by
  refine ⟨.inr (by omega), ?_⟩
  rw [h, Nat.sub_zero, List.drop_length]
  exact List.nil_prefix

end Paths

end PathNormal
