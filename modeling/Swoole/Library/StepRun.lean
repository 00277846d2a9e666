import Mathlib.Data.List.Infix

/-!
# Runs of a step function

A sequential component is a step function `f : σ → ι → σ`: it consumes one input
and moves to the next state.  Its run over a list of inputs is a left fold, the
inputs standing oldest first, and the states it reaches are the states after the
prefixes of that list.

Five rules carry every argument about such runs:

* `run_invariant` — what each step preserves, a whole run preserves;
* `exists_run_of_measure` — what some input brings nearer in every state, some inputs reach;
* `EachStep` — the side condition "every step of this run meets `C`", where `C`
  looks at the state *before* the step and at its input, and
  `EachStep.run_invariant`, the invariant rule under such a condition;
* `forall_prefix_iff_eachStep` — when `C` is the *exact* condition under which a
  step keeps the property `Q`, the runs on which `Q` never fails are precisely
  the runs all of whose steps meet `C`;
* `run_iff_eachStep` — when a step that misses `C` is never made up for, already
  the last state of a run tells whether all its steps met `C`.
-/

namespace StepRun

open List

universe u v

variable {σ : Type u} {ι : Type v} {f : σ → ι → σ} {C D : σ → ι → Prop} {P I Q : σ → Prop}
  {B : ι → Prop}

/-- The state a run ends in, the inputs being consumed oldest first. -/
def run (f : σ → ι → σ) (s : σ) (is : List ι) : σ := is.foldl f s

@[simp] theorem run_nil (f : σ → ι → σ) (s : σ) : run f s [] = s := rfl

@[simp] theorem run_cons (f : σ → ι → σ) (s : σ) (i : ι) (is : List ι) :
    run f s (i :: is) = run f (f s i) is := rfl

theorem run_append (f : σ → ι → σ) (s : σ) (is js : List ι) :
    run f s (is ++ js) = run f (run f s is) js := foldl_append

/-- **The invariant rule**: what every step preserves, every run preserves. -/
theorem run_invariant (step : ∀ s i, P s → P (f s i)) :
    ∀ (is : List ι) {s : σ}, P s → P (run f s is) := by
  intro is
  induction is with
  | nil => intro s hs; exact hs
  | cons i is ih => intro s hs; exact ih (step s i hs)

/-- **The progress rule**: if in every state of `I` that is not in `Q` some input from `B` keeps
`I` and makes the measure smaller, or leads to `Q`, then from every state of `I` some inputs
from `B` lead to `Q`. -/
theorem exists_run_of_measure {α : Type*} {r : α → α → Prop} (wf : WellFounded r) (μ : σ → α)
    (progress : ∀ s, I s → ¬ Q s → ∃ i, B i ∧ (Q (f s i) ∨ I (f s i) ∧ r (μ (f s i)) (μ s))) :
    ∀ {s : σ}, I s → ∃ is : List ι, (∀ i ∈ is, B i) ∧ Q (run f s is) := by
  intro s
  induction s using (InvImage.wf μ wf).induction with
  | _ s ih =>
    intro hs
    by_cases hQ : Q s
    · exact ⟨[], nofun, hQ⟩
    · obtain ⟨i, hi, hnext | ⟨hI, hlt⟩⟩ := progress s hs hQ
      · exact ⟨[i], by simpa using hi, hnext⟩
      · obtain ⟨is, his, hend⟩ := ih (f s i) hlt hI
        exact ⟨i :: is, forall_mem_cons.mpr ⟨hi, his⟩, hend⟩

/-- Every step of the run from `s` over the inputs meets `C`, read at the state
before the step and its input. -/
def EachStep (f : σ → ι → σ) (C : σ → ι → Prop) : σ → List ι → Prop
  | _, [] => True
  | s, i :: is => C s i ∧ EachStep f C (f s i) is

@[simp] theorem eachStep_nil (f : σ → ι → σ) (C : σ → ι → Prop) (s : σ) :
    EachStep f C s [] := trivial

@[simp] theorem eachStep_cons (f : σ → ι → σ) (C : σ → ι → Prop) (s : σ) (i : ι)
    (is : List ι) :
    EachStep f C s (i :: is) ↔ C s i ∧ EachStep f C (f s i) is := Iff.rfl

instance decidableEachStep (f : σ → ι → σ) (C : σ → ι → Prop)
    [∀ s i, Decidable (C s i)] : ∀ (s : σ) (is : List ι), Decidable (EachStep f C s is)
  | _, [] => .isTrue trivial
  | s, i :: is =>
    have := decidableEachStep f C (f s i) is
    inferInstanceAs (Decidable (C s i ∧ EachStep f C (f s i) is))

variable {s : σ}

theorem eachStep_append (is js : List ι) :
    EachStep f C s (is ++ js) ↔ EachStep f C s is ∧ EachStep f C (run f s is) js := by
  induction is generalizing s with
  | nil => simp
  | cons i is ih => simp [ih, and_assoc]

variable {is : List ι}

theorem EachStep.restrict {used : List ι} (h : EachStep f C s is) (pre : used <+: is) :
    EachStep f C s used := by
  obtain ⟨rest, rfl⟩ := pre
  exact ((eachStep_append used rest).mp h).1

theorem EachStep.and (hC : EachStep f C s is) (hD : EachStep f D s is) :
    EachStep f (fun s i => C s i ∧ D s i) s is := by
  induction is generalizing s with
  | nil => trivial
  | cons i is ih => exact ⟨⟨hC.1, hD.1⟩, ih hC.2 hD.2⟩

theorem eachStep_of_forall (h : ∀ i ∈ is, B i) (s : σ) : EachStep f (fun _ i => B i) s is := by
  induction is generalizing s with
  | nil => trivial
  | cons i is ih =>
    exact ⟨h i mem_cons_self, ih (fun j hj => h j (mem_cons_of_mem i hj)) _⟩

/-- **The conditional invariant rule**: `P` survives every step that meets `C`,
so it survives every run all of whose steps do. -/
theorem EachStep.run_invariant (step : ∀ s i, P s → C s i → P (f s i)) :
    ∀ {is : List ι} {s : σ}, EachStep f C s is → P s → P (run f s is) := by
  intro is
  induction is with
  | nil => intro s _ hs; exact hs
  | cons i is ih => intro s h hs; exact ih h.2 (step s i hs h.1)

/-- The invariant rule for runs whose inputs are restricted to `B`. -/
theorem run_invariant_of_inputs (step : ∀ s i, B i → P s → P (f s i)) (is : List ι)
    (hB : ∀ i ∈ is, B i) (hs : P s) : P (run f s is) :=
  (eachStep_of_forall hB s).run_invariant (fun s i hs hi => step s i hi hs) hs

/-- Along a run that meets `C`, whatever `C` and an invariant imply is met as well. -/
theorem EachStep.imp (keeps : ∀ s i, P s → C s i → P (f s i))
    (implies : ∀ s i, P s → C s i → D s i) :
    ∀ {is : List ι} {s : σ}, EachStep f C s is → P s → EachStep f D s is := by
  intro is
  induction is with
  | nil => intro s _ _; trivial
  | cons i is ih => intro s h hs; exact ⟨implies s i hs h.1, ih h.2 (keeps s i hs h.1)⟩

/-- **The simulation rule**: two components that stay in the relation `R` on every
step that meets `C` are in `R` after every run all of whose steps do. -/
theorem EachStep.run_simulation {τ : Type*} {g : τ → ι → τ} {R : σ → τ → Prop}
    (step : ∀ s t i, R s t → C s i → R (f s i) (g t i)) :
    ∀ {is : List ι} {s : σ} {t : τ}, EachStep f C s is → R s t → R (run f s is) (run g t is) := by
  intro is
  induction is with
  | nil => intro s t _ hR; exact hR
  | cons i is ih => intro s t h hR; exact ih h.2 (step s t i hR h.1)

/-- A condition that the invariant implies is met by every step of every run. -/
theorem eachStep_of_invariant (meets : ∀ s i, B i → P s → C s i)
    (step : ∀ s i, B i → P s → C s i → P (f s i)) (is : List ι) (hB : ∀ i ∈ is, B i) (hs : P s) :
    EachStep f C s is :=
  (eachStep_of_forall hB s).imp (fun s i hs hi => step s i hi hs (meets s i hi hs))
    (fun s i hs hi => meets s i hi hs) hs

/-- Two conditions that agree in the states of the invariant, which the second one keeps,
are met along the same runs. -/
theorem eachStep_congr (agree : ∀ s i, I s → (D s i ↔ C s i))
    (keeps : ∀ s i, I s → C s i → I (f s i)) :
    ∀ (is : List ι) {s : σ}, I s → (EachStep f D s is ↔ EachStep f C s is) := by
  intro is
  induction is with
  | nil => intro s _; exact Iff.rfl
  | cons i is ih =>
    intro s hs
    rw [eachStep_cons, eachStep_cons, agree s i hs]
    exact and_congr_right fun hC => ih (keeps s i hs hC)

/-- **The exact-condition rule.**  Suppose that in a state with the invariant
`I` and the property `Q`, an admissible step keeps `Q` exactly when it meets `C`, and that it
then keeps `I` as well.  Then `Q` holds in every state of an admissible run if and only if
every step of the run meets `C`. -/
theorem EachStep.forall_prefix_iff {A : σ → ι → Prop}
    (keeps : ∀ s i, I s → Q s → A s i → C s i → I (f s i))
    (exact_step : ∀ s i, I s → Q s → A s i → (Q (f s i) ↔ C s i)) :
    ∀ {is : List ι} {s : σ}, EachStep f A s is → I s → Q s →
      ((∀ used, used <+: is → Q (run f s used)) ↔ EachStep f C s is) := by
  intro is
  induction is with
  | nil =>
    intro s _ _ hQ
    refine ⟨fun _ => trivial, fun _ used pre => ?_⟩
    rw [prefix_nil.mp pre]
    exact hQ
  | cons i is ih =>
    rintro s ⟨hA, hadm⟩ hI hQ
    constructor
    · intro h
      have hC : C s i :=
        (exact_step s i hI hQ hA).mp (h [i] ⟨is, rfl⟩)
      refine ⟨hC, (ih hadm (keeps s i hI hQ hA hC) ((exact_step s i hI hQ hA).mpr hC)).mp ?_⟩
      intro used pre
      exact h (i :: used) (cons_prefix_cons.mpr ⟨rfl, pre⟩)
    · rintro ⟨hC, hrest⟩ used pre
      cases used with
      | nil => exact hQ
      | cons j used =>
        obtain ⟨rfl, pre'⟩ := cons_prefix_cons.mp pre
        exact (ih hadm (keeps s j hI hQ hA hC)
          ((exact_step s j hI hQ hA).mpr hC)).mpr hrest used pre'

theorem forall_prefix_iff_eachStep (keeps : ∀ s i, I s → Q s → C s i → I (f s i))
    (exact_step : ∀ s i, I s → Q s → (Q (f s i) ↔ C s i)) (is : List ι) (hI : I s) (hQ : Q s) :
    (∀ used, used <+: is → Q (run f s used)) ↔ EachStep f C s is :=
  EachStep.forall_prefix_iff (fun s i hI hQ _ => keeps s i hI hQ)
    (fun s i hI hQ _ => exact_step s i hI hQ)
    (eachStep_of_forall (B := fun _ => True) (fun _ _ => trivial) s) hI hQ

/-- **The point-of-no-return rule.**  A good step of a state in `P` stays in `P`, a
step that misses `C` falls into `L`, and from `L` there is no way back.  If `Q` tells
`P` from `L`, then `Q` holds at the end of a run exactly when every step met `C`.
`B` restricts the inputs that are considered. -/
theorem run_iff_eachStep {L : σ → Prop} (good : ∀ s i, B i → P s → C s i → P (f s i))
    (bad : ∀ s i, B i → P s → ¬ C s i → L (f s i)) (lost : ∀ s i, L s → L (f s i))
    (ofP : ∀ s, P s → Q s) (ofL : ∀ s, L s → ¬ Q s) :
    ∀ (is : List ι), (∀ i ∈ is, B i) → ∀ {s : σ}, P s →
      (Q (run f s is) ↔ EachStep f C s is) := by
  intro is
  induction is with
  | nil =>
    intro _ s hP
    exact ⟨fun _ => trivial, fun _ => ofP s hP⟩
  | cons i is ih =>
    intro hB s hP
    have hi : B i := hB i mem_cons_self
    have his : ∀ j ∈ is, B j := fun j hj => hB j (mem_cons_of_mem i hj)
    by_cases hC : C s i
    · rw [run_cons, eachStep_cons]
      exact (ih his (good s i hi hP hC)).trans ⟨fun h => ⟨hC, h⟩, fun h => h.2⟩
    · have hlost : L (run f (f s i) is) := run_invariant lost is (bad s i hi hP hC)
      exact ⟨fun hQ => absurd hQ (ofL _ hlost), fun h => absurd h.1 hC⟩

end StepRun
