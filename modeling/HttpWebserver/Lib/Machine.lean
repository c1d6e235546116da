import Mathlib.Data.List.Basic
import Mathlib.Data.List.Infix

/-!
# Partial machines and their runs

A machine is a partial step function `step : σ → ι → Option σ`: the input (or label) `ι`
carries every choice the environment makes, and `none` says that the step is not possible
in that state. This module has what proofs about whole runs need, once:

* `exec`: the run of a list of inputs, with its cons, append and snoc equations;
* `exec_induction`: the run rule. A property of the inputs executed so far and the state
  reached holds of every run when it holds at the start and every step keeps it;
* `exec_last_change`: the last step of a run that changed something;
* `reaches_before`: what some continuation of a run can reach, step by step from behind;
* `emitted`: what the steps of a run emit, one after the other, with the balance rule for a run
  that passes on what it takes in, the conservation rule for one that does so in any order, and the
  simulation rule for a run that is one of another machine;
* `Along`: a condition on the pre-state and the input of every step of a run; `exec_along` is the
  run rule under such a condition, `exec_progress` its progress rule, and `always_iff_along` the
  rule for a property that all states of a run have exactly under it;
* `Follows`: every state of a run stands in a relation to the abstract state that a total
  reference step computes from the same inputs;
* `follows_iff_along`: where one step keeps the relation exactly under a condition, a whole
  run follows the reference exactly when the condition holds along it.
-/

namespace Machine

variable {σ ι α : Type*}

/-- The run of a list of inputs; `none` as soon as one step is not possible. -/
def exec (step : σ → ι → Option σ) : σ → List ι → Option σ
  | s, [] => some s
  | s, i :: is => (step s i).bind fun s' => exec step s' is

section Exec

variable {step : σ → ι → Option σ}

@[simp] theorem exec_nil (s : σ) : exec step s [] = some s := rfl

@[simp] theorem exec_cons (s : σ) (i : ι) (is : List ι) :
    exec step s (i :: is) = (step s i).bind fun s' => exec step s' is := rfl

theorem exec_append (s : σ) (is js : List ι) :
    exec step s (is ++ js) = (exec step s is).bind fun s' => exec step s' js := by
  induction is generalizing s with
  | nil => rfl
  | cons i is ih =>
    rw [List.cons_append, exec_cons, exec_cons, Option.bind_assoc]
    congr 1
    funext s'
    exact ih s'

/-- A run with a last step: the run before it, then the step. -/
theorem exec_concat (s : σ) (is : List ι) (i : ι) :
    exec step s (is ++ [i]) = (exec step s is).bind fun s' => step s' i := by
  rw [exec_append]
  congr 1
  funext s'
  simp

theorem exec_concat_eq_some {s t : σ} {is : List ι} {i : ι} :
    exec step s (is ++ [i]) = some t ↔ ∃ u, exec step s is = some u ∧ step u i = some t := by
  rw [exec_concat, Option.bind_eq_some_iff]

/-- A run splits at any point of its inputs. -/
theorem exec_append_eq_some {s t : σ} {is js : List ι} :
    exec step s (is ++ js) = some t ↔
      ∃ u, exec step s is = some u ∧ exec step u js = some t := by
  rw [exec_append, Option.bind_eq_some_iff]

/-- **The run rule.** `P is s` speaks of the inputs executed so far and the state reached;
it holds of every run when it holds at the start and one step keeps it. -/
theorem exec_induction {P : List ι → σ → Prop} {s₀ : σ} (hinit : P [] s₀)
    (hstep : ∀ is s i t, exec step s₀ is = some s → P is s → step s i = some t →
      P (is ++ [i]) t) :
    ∀ {is : List ι} {s : σ}, exec step s₀ is = some s → P is s := by
  intro is
  induction is using List.reverseRecOn with
  | nil =>
    intro s hs
    cases hs
    exact hinit
  | append_singleton is i ih =>
    intro t ht
    obtain ⟨s, hs, hi⟩ := exec_concat_eq_some.mp ht
    exact hstep is s i t hs (ih hs) hi

/-- The run rule for a property of the state alone. -/
theorem exec_invariant {I : σ → Prop} (hstep : ∀ s i t, I s → step s i = some t → I t)
    {s t : σ} {is : List ι} (hs : I s) (hrun : exec step s is = some t) : I t :=
  exec_induction (P := fun _ u => I u) hs (fun _ u i v _ hu hv => hstep u i v hu hv) hrun

/-- What a run has changed it has changed in a last step. -/
theorem exec_last_change (f : σ → α) {s t : σ} {is : List ι} (hrun : exec step s is = some t) :
    f t = f s ∨ ∃ js i u v, js ++ [i] <+: is ∧ exec step s js = some u ∧ step u i = some v ∧
      f v = f t ∧ f u ≠ f v := by
  refine exec_induction (P := fun is t => f t = f s ∨ ∃ js i u v, js ++ [i] <+: is ∧
    exec step s js = some u ∧ step u i = some v ∧ f v = f t ∧ f u ≠ f v) (.inl rfl) ?_ hrun
  intro is u i v hu ih hi
  by_cases hsame : f u = f v
  · rcases ih with heq | ⟨js, j, w, x, hjs, hw, hx, hfx, hne⟩
    · exact .inl (hsame.symm.trans heq)
    · exact .inr ⟨js, j, w, x, hjs.trans (List.prefix_append _ _), hw, hx, hfx.trans hsame, hne⟩
  · exact .inr ⟨is, i, u, v, List.prefix_rfl, hu, hi, rfl, hsame⟩

/-- What can be reached after a step can be reached before it. -/
theorem reaches_before {Good : σ → Prop} {s s' : σ} {i : ι} (hs : step s i = some s')
    (h : ∃ is t, exec step s' is = some t ∧ Good t) :
    ∃ is t, exec step s is = some t ∧ Good t := by
  obtain ⟨is, t, hrun, ht⟩ := h
  refine ⟨i :: is, t, ?_, ht⟩
  rw [exec_cons, hs]
  exact hrun

end Exec

/-! ## What a run emits

Ghost outputs of the steps, such as the bytes a step hands out or the functors it calls. The rules
below carry what one step says about them to a run. -/

/-- The concatenation of what each step of the run emits in its pre-state. -/
def emitted {β : Type*} (step : σ → ι → Option σ) (out : σ → ι → List β) : σ → List ι → List β
  | _, [] => []
  | s, i :: is => out s i ++ (step s i).elim [] fun s' => emitted step out s' is

theorem emitted_append {β : Type*} {step : σ → ι → Option σ} {out : σ → ι → List β}
    {s t : σ} {is : List ι} (h : exec step s is = some t) (js : List ι) :
    emitted step out s (is ++ js) = emitted step out s is ++ emitted step out t js := by
  induction is generalizing s with
  | nil =>
    cases h
    rfl
  | cons i is ih =>
    obtain ⟨s', hs', h'⟩ := Option.bind_eq_some_iff.mp h
    simp only [List.cons_append, emitted, hs', Option.elim_some, ih h', List.append_assoc]

theorem emitted_concat {β : Type*} {step : σ → ι → Option σ} {out : σ → ι → List β}
    {s t : σ} {is : List ι} (h : exec step s is = some t) (i : ι) :
    emitted step out s (is ++ [i]) = emitted step out s is ++ out t i := by
  rw [emitted_append h [i]]
  cases hi : step t i <;> simp [emitted, hi]

theorem emitted_cons {β : Type*} {step : σ → ι → Option σ} {out : σ → ι → List β}
    {s t : σ} {i : ι} (h : step s i = some t) (is : List ι) :
    emitted step out s (i :: is) = out s i ++ emitted step out t is := by
  rw [emitted, h, Option.elim_some]

theorem emitted_flatten {β : Type*} {step : σ → ι → Option σ} {out : σ → ι → List (List β)}
    (s : σ) (is : List ι) :
    (emitted step out s is).flatten = emitted step (fun s i => (out s i).flatten) s is := by
  induction is generalizing s with
  | nil => rfl
  | cons i is ih =>
    rw [emitted, emitted, List.flatten_append]
    cases step s i with
    | none => rfl
    | some t =>
      rw [Option.elim_some, Option.elim_some, ih]

/-- **The balance rule.** Where each step passes on, in order, what the state holds (`r`) and,
behind it, what the step takes in, a run does. -/
theorem emitted_balance {β : Type*} {step : σ → ι → Option σ} {out inp : σ → ι → List β}
    {r : σ → List β} (hstep : ∀ s i t, step s i = some t → out s i ++ r t = r s ++ inp s i)
    {s t : σ} {is : List ι} (hrun : exec step s is = some t) :
    emitted step out s is ++ r t = r s ++ emitted step inp s is := by
  induction is generalizing s with
  | nil =>
    cases hrun
    exact (List.append_nil _).symm
  | cons i is ih =>
    obtain ⟨u, hu, hrest⟩ := Option.bind_eq_some_iff.mp hrun
    calc emitted step out s (i :: is) ++ r t
        = out s i ++ (emitted step out u is ++ r t) := by
          rw [emitted_cons hu, List.append_assoc]
      _ = (out s i ++ r u) ++ emitted step inp u is := by
          rw [ih hrest, List.append_assoc]
      _ = r s ++ emitted step inp s (i :: is) := by
          rw [hstep s i u hu, emitted_cons hu, List.append_assoc]

/-- **The conservation rule.** The same in any order: where each step, from a state with the
invariant, gives out or keeps (`r`) what the state held and what it takes in, a run does. -/
theorem emitted_conserved {β : Type*} {step : σ → ι → Option σ} {out inp : σ → ι → List β}
    {r : σ → List β} {I : σ → Prop} (hI : ∀ s i t, I s → step s i = some t → I t)
    (hstep : ∀ s i t, I s → step s i = some t → (out s i ++ r t).Perm (r s ++ inp s i))
    {s t : σ} {is : List ι} (hs : I s) (hrun : exec step s is = some t) :
    (emitted step out s is ++ r t).Perm (r s ++ emitted step inp s is) := by
  induction is generalizing s with
  | nil =>
    cases hrun
    exact List.Perm.of_eq (List.append_nil _).symm
  | cons i is ih =>
    obtain ⟨u, hu, hrest⟩ := Option.bind_eq_some_iff.mp hrun
    rw [emitted_cons hu, emitted_cons hu, List.append_assoc, ← List.append_assoc (r s)]
    have hlast := (ih (hI s i u hs hu) hrest).append_left (out s i)
    rw [← List.append_assoc (out s i) (r u)] at hlast
    exact hlast.trans ((hstep s i u hs hu).append_right _)

/-- **The potential rule.** Where each step, under a condition on its input and from a state with
the invariant, takes what it emits from the potential `Φ`, to which what it takes in adds, a run
does. -/
theorem emitted_potential {β γ : Type*} {step : σ → ι → Option σ} {out : σ → ι → List β}
    {inp : σ → ι → List γ} {Φ : σ → Nat} {I : σ → Prop} {R : ι → Prop}
    (hI : ∀ s i t, I s → R i → step s i = some t → I t)
    (hstep : ∀ s i t, I s → R i → step s i = some t →
      (out s i).length + Φ t ≤ Φ s + (inp s i).length)
    {s t : σ} {is : List ι} (hs : I s) (hR : ∀ i ∈ is, R i) (hrun : exec step s is = some t) :
    (emitted step out s is).length + Φ t ≤ Φ s + (emitted step inp s is).length := by
  induction is generalizing s with
  | nil =>
    cases hrun
    exact Nat.le_of_eq (Nat.zero_add _)
  | cons i is ih =>
    obtain ⟨u, hu, hrest⟩ := Option.bind_eq_some_iff.mp hrun
    obtain ⟨hi, his⟩ := List.forall_mem_cons.mp hR
    rw [emitted_cons hu, emitted_cons hu, List.length_append, List.length_append]
    have hfirst := hstep s i u hs hi hu
    have hlast := ih (hI s i u hs hi hu) his hrest
    omega

/-- **The simulation rule.** Where each step of one machine is a run of another between the
views of its states, a run is. -/
theorem exec_simulated {τ κ : Type*} {step : σ → ι → Option σ} {step' : τ → κ → Option τ}
    {v : σ → τ} {labels : σ → ι → List κ}
    (hstep : ∀ s i t, step s i = some t → exec step' (v s) (labels s i) = some (v t))
    {s t : σ} {is : List ι} (hrun : exec step s is = some t) :
    exec step' (v s) (emitted step labels s is) = some (v t) := by
  induction is generalizing s with
  | nil =>
    cases hrun
    rfl
  | cons i is ih =>
    obtain ⟨u, hu, hrest⟩ := Option.bind_eq_some_iff.mp hrun
    rw [emitted_cons hu]
    exact exec_append_eq_some.mpr ⟨v u, hstep s i u hu, ih hrest⟩

/-! ## Conditions along a run

A condition on the state and the input of each step. It is asked only of the steps that are taken,
and each rule below has it as the hypothesis of its step. -/

/-- `P` holds of the pre-state and the input of every step of the run that is taken. -/
def Along (step : σ → ι → Option σ) (P : σ → ι → Prop) : σ → List ι → Prop
  | _, [] => True
  | s, i :: is => P s i ∧ ∀ s', step s i = some s' → Along step P s' is

section Along

variable {step : σ → ι → Option σ} {P Q : σ → ι → Prop}

/-- The step that is taken decides what the rest of the run is. -/
theorem along_cons {s s' : σ} {i : ι} {is : List ι} (h : step s i = some s') :
    Along step P s (i :: is) ↔ P s i ∧ Along step P s' is := by
  rw [Along, h]
  simp

theorem Along.mono (hPQ : ∀ s i, P s i → Q s i) :
    ∀ {is : List ι} {s : σ}, Along step P s is → Along step Q s is
  | [], _, _ => trivial
  | _ :: _, _, ⟨hp, hrest⟩ => ⟨hPQ _ _ hp, fun s' hs => Along.mono hPQ (hrest s' hs)⟩

theorem along_true {s : σ} {is : List ι} : Along step (fun _ _ => True) s is := by
  induction is generalizing s with
  | nil => trivial
  | cons i is ih => exact ⟨trivial, fun _ _ => ih⟩

/-- A condition on the inputs alone, along a run that is taken. -/
theorem along_inputs {R : ι → Prop} {s t : σ} {is : List ι} (hrun : exec step s is = some t) :
    Along step (fun _ i => R i) s is ↔ ∀ i ∈ is, R i := by
  induction is generalizing s with
  | nil => simp [Along]
  | cons i is ih =>
    obtain ⟨u, hu, hrest⟩ := Option.bind_eq_some_iff.mp hrun
    rw [along_cons hu, ih hrest, List.forall_mem_cons]

/-- Conditions that say the same where an invariant holds, along a run under a condition that
keeps the invariant. -/
theorem along_congr_under {I : σ → Prop} {R : σ → ι → Prop}
    (hI : ∀ s i t, I s → R s i → step s i = some t → I t)
    (hPQ : ∀ s i, I s → (P s i ↔ Q s i)) {s : σ} (hs : I s) {is : List ι}
    (hR : Along step R s is) : Along step P s is ↔ Along step Q s is := by
  induction is generalizing s with
  | nil => exact Iff.rfl
  | cons i is ih =>
    refine and_congr (hPQ s i hs) (forall_congr' fun t => imp_congr_right fun ht => ?_)
    exact ih (hI s i t hs hR.1 ht) (hR.2 t ht)

/-- Conditions that say the same where an invariant holds. -/
theorem along_congr {I : σ → Prop} (hI : ∀ s i t, I s → step s i = some t → I t)
    (hPQ : ∀ s i, I s → (P s i ↔ Q s i)) {s : σ} (hs : I s) {is : List ι} :
    Along step P s is ↔ Along step Q s is :=
  along_congr_under (fun s i t h _ ht => hI s i t h ht) hPQ hs along_true

/-- A condition along a run with a last step. -/
theorem along_concat {s : σ} {is : List ι} {i : ι} :
    Along step P s (is ++ [i]) ↔
      Along step P s is ∧ ∀ t, exec step s is = some t → P t i := by
  induction is generalizing s with
  | nil => simp [Along]
  | cons j is ih =>
    simp only [List.cons_append, Along, exec_cons, Option.bind_eq_some_iff, and_assoc]
    refine and_congr_right fun _ => ⟨fun h => ?_, fun h s' hs' => ih.mpr ⟨h.1 s' hs', ?_⟩⟩
    · refine ⟨fun s' hs' => (ih.mp (h s' hs')).1, ?_⟩
      rintro t ⟨s', hs', ht⟩
      exact (ih.mp (h s' hs')).2 t ht
    · exact fun t ht => h.2 t ⟨s', hs', ht⟩

theorem Along.of_prefix {s : σ} {is js : List ι} (h : Along step P s js) (hpre : is <+: js) :
    Along step P s is := by
  obtain ⟨ks, rfl⟩ := hpre
  induction ks using List.reverseRecOn with
  | nil => simpa using h
  | append_singleton ks k ih =>
    rw [← List.append_assoc] at h
    exact ih (along_concat.mp h).1

/-- The condition holds of every step, that is behind every part of the inputs that is possible. -/
theorem along_iff_before {s : σ} {is : List ι} : Along step P s is ↔
    ∀ js i, js ++ [i] <+: is → ∀ t, exec step s js = some t → P t i := by
  constructor
  · intro h js i hpre t ht
    exact (along_concat.mp (h.of_prefix hpre)).2 t ht
  · induction is using List.reverseRecOn with
    | nil => exact fun _ => trivial
    | append_singleton is i ih =>
      intro h
      refine along_concat.mpr ⟨ih fun js j hpre => ?_, h is i List.prefix_rfl⟩
      exact h js j (hpre.trans (List.prefix_append is [i]))

/-- **The run rule under a condition.** A property that one step keeps where `P` holds of it
holds of every run along which `P` holds. -/
theorem exec_along {I : List ι → σ → Prop} {s₀ : σ} (hinit : I [] s₀)
    (hkeep : ∀ is s i t, exec step s₀ is = some s → I is s → P s i → step s i = some t →
      I (is ++ [i]) t)
    {is : List ι} {s : σ} (hrun : exec step s₀ is = some s) (halong : Along step P s₀ is) :
    I is s := by
  refine exec_induction (P := fun is s => Along step P s₀ is → I is s) (fun _ => hinit) ?_
    hrun halong
  intro is s i t hs ih hstep halong
  obtain ⟨halong, hi⟩ := along_concat.mp halong
  exact hkeep is s i t hs (ih halong) (hi s hs) hstep

/-- **The progress rule.** A run along `P` is possible where every step under `P` is, and keeps what
makes the next one so. -/
theorem exec_progress {I : List ι → σ → Prop} {s₀ : σ} (hinit : I [] s₀)
    (hstep : ∀ is s i, I is s → P s i → ∃ t, step s i = some t ∧ I (is ++ [i]) t)
    {is : List ι} (halong : Along step P s₀ is) : ∃ t, exec step s₀ is = some t ∧ I is t := by
  induction is using List.reverseRecOn with
  | nil => exact ⟨s₀, rfl, hinit⟩
  | append_singleton is i ih =>
    obtain ⟨hbefore, hlast⟩ := along_concat.mp halong
    obtain ⟨s, hs, hI⟩ := ih hbefore
    obtain ⟨t, ht, hI'⟩ := hstep is s i hI (hlast s hs)
    exact ⟨t, exec_concat_eq_some.mpr ⟨s, hs, ht⟩, hI'⟩

/-- **The rule for all states of a run.** Where a step under `P` keeps a property that implies
`Good`, and any other step ends in a state that is not `Good`, all states of a run are `Good`
exactly when `P` holds along it. -/
theorem always_iff_along {I Good : List ι → σ → Prop} {s₀ : σ} (hinit : I [] s₀)
    (hgood : ∀ is s, exec step s₀ is = some s → I is s → Good is s)
    (hkeep : ∀ is s i t, exec step s₀ is = some s → I is s → P s i → step s i = some t →
      I (is ++ [i]) t)
    (hbreak : ∀ is s i t, exec step s₀ is = some s → I is s → ¬ P s i → step s i = some t →
      ¬ Good (is ++ [i]) t)
    {is : List ι} {s : σ} (hrun : exec step s₀ is = some s) :
    (∀ js, js <+: is → ∀ t, exec step s₀ js = some t → Good js t) ↔ Along step P s₀ is := by
  constructor
  · intro h
    induction is using List.reverseRecOn generalizing s with
    | nil => trivial
    | append_singleton is i ih =>
      obtain ⟨t, ht, hs⟩ := exec_concat_eq_some.mp hrun
      have halong := ih ht fun js hjs => h js (hjs.trans (List.prefix_append is [i]))
      refine along_concat.mpr ⟨halong, ?_⟩
      intro t' ht'
      cases ht.symm.trans ht'
      -- the last step is taken from a state with the property
      by_contra hnot
      have hlost := hbreak is t i s ht (exec_along hinit hkeep ht halong) hnot hs
      exact hlost (h _ List.prefix_rfl s hrun)
  · intro halong js hjs t ht
    exact hgood js t ht (exec_along hinit hkeep ht (halong.of_prefix hjs))

end Along

/-! ## Following a reference

A total reference computes from the inputs what the states should be. Where one step follows it
exactly when `Safe` holds, so does a run. -/

/-- Every state of the run is reached, and stands in `R` to the state that the total
reference step `ref` computes from the same inputs. -/
def Follows (step : σ → ι → Option σ) (ref : α → ι → α) (R : σ → α → Prop) (s : σ) (a : α)
    (is : List ι) : Prop :=
  ∀ js, js <+: is → ∃ t, exec step s js = some t ∧ R t (js.foldl ref a)

section Follows

variable {step : σ → ι → Option σ} {ref : α → ι → α} {R : σ → α → Prop}

theorem follows_nil {s : σ} {a : α} : Follows step ref R s a [] ↔ R s a := by
  constructor
  · intro h
    obtain ⟨t, ht, hR⟩ := h [] List.nil_prefix
    cases ht
    exact hR
  · intro h js hjs
    rw [List.prefix_nil.mp hjs]
    exact ⟨s, rfl, h⟩

theorem Follows.of_prefix {s : σ} {a : α} {is js : List ι}
    (h : Follows step ref R s a js) (hpre : is <+: js) : Follows step ref R s a is :=
  fun ks hks => h ks (hks.trans hpre)

/-- A run with a last step follows the reference when the run before it does and the last
state is reached and related. -/
theorem follows_concat {s : σ} {a : α} {is : List ι} {i : ι} :
    Follows step ref R s a (is ++ [i]) ↔
      Follows step ref R s a is ∧
        ∃ t, exec step s (is ++ [i]) = some t ∧ R t (ref (is.foldl ref a) i) := by
  constructor
  · intro h
    refine ⟨h.of_prefix (List.prefix_append is [i]), ?_⟩
    simpa using h (is ++ [i]) List.prefix_rfl
  · rintro ⟨h, hlast⟩ js hjs
    rcases List.prefix_concat_iff.mp hjs with rfl | hjs
    · simpa using hlast
    · exact h js hjs

/-- **The run rule for a reference.** Where one step, taken from related states under
`Adm`, is possible and keeps the relation exactly when `Safe` holds, a whole admissible run
follows the reference exactly when `Safe` holds along it. -/
theorem follows_iff_along {Adm Safe : σ → ι → Prop} {s₀ : σ} {a₀ : α} (hinit : R s₀ a₀)
    (hstep : ∀ s a i, R s a → Adm s i →
      ((∃ t, step s i = some t ∧ R t (ref a i)) ↔ Safe s i))
    {is : List ι} (hadm : Along step Adm s₀ is) :
    Follows step ref R s₀ a₀ is ↔ Along step Safe s₀ is := by
  induction is using List.reverseRecOn with
  | nil => simpa [follows_nil, Along] using hinit
  | append_singleton is i ih =>
    obtain ⟨hadm, hi⟩ := along_concat.mp hadm
    rw [follows_concat, along_concat, ih hadm]
    refine and_congr_right fun hsafe => ?_
    -- the run so far follows the reference, so its last state is related
    obtain ⟨s, hs, hR⟩ := (ih hadm).mpr hsafe is List.prefix_rfl
    rw [exec_concat, hs, Option.bind_some]
    rw [hstep s _ i hR (hi s hs)]
    constructor
    · rintro h t ht
      cases ht
      exact h
    · exact fun h => h s rfl

end Follows

end Machine
