import Mathlib.Data.List.Forall2
import Mathlib.Data.List.Induction
import Mathlib.Data.Option.Basic
import Mathlib.Tactic.Common

/-!
# Runs of labelled steps

A system makes steps from state to state, each under a label. A run records its steps, each with the
state it was made in. An invariant that one step keeps holds along every run; where a step keeps a
property only under a condition, the property holds along a run just if the condition does at every
step. A system refines another if each of its steps is matched by one of the other.
-/

namespace LabelledRun

variable {σ ι α κ : Type*}

/-- The steps of a run, each with the state it was made in. -/
inductive Run (step : σ → ι → σ → Prop) (s₀ : σ) : List (σ × ι) → σ → Prop
  | nil : Run step s₀ [] s₀
  | snoc {steps : List (σ × ι)} {s s' : σ} {i : ι} (run : Run step s₀ steps s)
      (next : step s i s') :
      Run step s₀ (steps ++ [(s, i)]) s'

/-- The states of a run that ends in `s`. -/
def visited (steps : List (σ × ι)) (s : σ) : List σ := steps.map Prod.fst ++ [s]

section Run

variable {step : σ → ι → σ → Prop} {s₀ s s' : σ} {i : ι} {steps : List (σ × ι)} {labels : List ι}
  {P : List ι → ι → Prop} {Q : σ → ι → Prop} {J Good : σ → Prop}

@[simp] theorem visited_nil : visited ([] : List (σ × ι)) s = [s] := rfl

theorem visited_snoc : visited (steps ++ [(s, i)]) s' = visited steps s ++ [s'] := by
  rw [visited, List.map_append, List.map_singleton, visited]

/-- One run after another. -/
theorem Run.append {steps' : List (σ × ι)} (run : Run step s₀ steps s)
    (run' : Run step s steps' s') :
    Run step s₀ (steps ++ steps') s' := by
  induction run' with
  | nil => rwa [List.append_nil]
  | snoc run' next ih =>
    rw [← List.append_assoc]
    exact ih.snoc next

/-- A run up to one of its steps, and from there on. -/
theorem Run.split {pre post : List (σ × ι)} {u : σ} (run : Run step s₀ (pre ++ (u, i) :: post) s) :
    Run step s₀ pre u ∧ ∃ u', step u i u' ∧ Run step u' post s := by
  generalize hsteps : pre ++ (u, i) :: post = steps at run
  induction run generalizing post with
  | nil => simp at hsteps
  | @snoc steps v v' j run next ih =>
    cases post using List.reverseRecOn with
    | nil =>
      obtain ⟨rfl, hlast⟩ := List.append_inj' hsteps rfl
      obtain ⟨rfl, rfl⟩ := Prod.mk.inj (List.singleton_inj.1 hlast)
      exact ⟨run, _, next, .nil⟩
    | append_singleton post q =>
      rw [← List.cons_append, ← List.append_assoc] at hsteps
      obtain ⟨hpre, hlast⟩ := List.append_inj' hsteps rfl
      obtain rfl := List.singleton_inj.1 hlast
      obtain ⟨run', u', hstep, hrest⟩ := ih hpre
      exact ⟨run', u', hstep, hrest.snoc next⟩

/-- What holds at the start and is kept by every step that satisfies the condition holds in every
state visited. -/
theorem Run.always (run : Run step s₀ steps s) (h₀ : J s₀)
    (hstep : ∀ s i s', J s → step s i s' → Q s i → J s') (hQ : ∀ p ∈ steps, Q p.1 p.2) :
    ∀ u ∈ visited steps s, J u := by
  induction run with
  | nil => simpa using h₀
  | @snoc steps s s' i run next ih =>
    have hrun := ih fun p hp => hQ p (List.mem_append_left _ hp)
    intro u hu
    rw [visited_snoc, List.mem_append, List.mem_singleton] at hu
    rcases hu with hu | rfl
    · exact hrun u hu
    · exact hstep s i _ (hrun s (by simp [visited])) next (hQ (s, i) (by simp))

/-- Where the invariant `J` lasts as long as the steps satisfy `Q`, and a step out of `J` that does
not leads to a state that is not `Good`, all states of a run are good just if all steps satisfy
`Q`. -/
theorem Run.always_iff (run : Run step s₀ steps s) (h₀ : J s₀) (hgood : ∀ s, J s → Good s)
    (hstep : ∀ s i s', J s → step s i s' → Q s i → J s')
    (hback : ∀ s i s', J s → step s i s' → Good s' → Q s i) :
    (∀ u ∈ visited steps s, Good u) ↔ ∀ p ∈ steps, Q p.1 p.2 := by
  constructor
  · intro hall
    induction run with
    | nil => simp
    | @snoc steps s s' i run next ih =>
      rw [visited_snoc] at hall
      have hQ := ih fun u hu => hall u (List.mem_append_left _ hu)
      have hJ := run.always h₀ hstep hQ s (by simp [visited])
      intro p hp
      rcases List.mem_append.1 hp with hp | hp
      · exact hQ p hp
      · obtain rfl := List.mem_singleton.1 hp
        exact hback s i s' hJ next (hall s' (by simp))
  · exact fun hQ u hu => hgood u (run.always h₀ hstep hQ u hu)

end Run

section Refines

variable {step : σ → ι → σ → Prop} {astep : α → κ → α → Prop} {s₀ s : σ} {a₀ : α}
  {steps : List (σ × ι)} {R : σ → α → Prop} {Q : σ → ι → Prop} {label : ι → κ}

/-- A run is matched step by step by a run of the system it refines, under the labels given to it.
-/
theorem Run.refines (run : Run step s₀ steps s) (h₀ : R s₀ a₀)
    (hstep : ∀ s i s' a, R s a → step s i s' → Q s i → ∃ a', astep a (label i) a' ∧ R s' a')
    (hQ : ∀ p ∈ steps, Q p.1 p.2) :
    ∃ asteps a, Run astep a₀ asteps a ∧ R s a ∧
      List.Forall₂ (fun p q => R p.1 q.1 ∧ q.2 = label p.2) steps asteps := by
  induction run with
  | nil => exact ⟨[], a₀, .nil, h₀, .nil⟩
  | @snoc steps s s' i run next ih =>
    obtain ⟨asteps, a, arun, hR, hall⟩ := ih fun p hp => hQ p (List.mem_append_left _ hp)
    obtain ⟨a', hnext, hR'⟩ := hstep s i s' a hR next (hQ (s, i) (by simp))
    exact ⟨_, a', arun.snoc hnext, hR', List.rel_append hall (.cons ⟨hR, rfl⟩ .nil)⟩

end Refines

/-! ## Families

Systems of one kind side by side. Each is made once and then makes its steps.
-/

/-- What happens to a family: a system is made, a system makes a step, or nothing is seen. -/
inductive FamilyEvent (ν κ : Type*)
  | make (x : ν)
  | act (x : ν) (c : κ)
  | silent

section Family

variable {ν : Type*} [DecidableEq ν] {init a : α} {act : α → κ → α → Prop}
  {steps : List ((ν → Option α) × FamilyEvent ν κ)} {fs : ν → Option α} {x : ν}

inductive FamilyStep (init : α) (act : α → κ → α → Prop) :
    (ν → Option α) → FamilyEvent ν κ → (ν → Option α) → Prop
  | make {fs : ν → Option α} {x : ν} (new : fs x = none) :
      FamilyStep init act fs (.make x) (Function.update fs x (some init))
  | act {fs : ν → Option α} {x : ν} {a a' : α} {c : κ} (there : fs x = some a) (step : act a c a') :
      FamilyStep init act fs (.act x c) (Function.update fs x (some a'))
  | silent {fs : ν → Option α} : FamilyStep init act fs .silent fs

/-- What an event asks of the system `x`. -/
def FamilyEvent.actOn (x : ν) : FamilyEvent ν κ → Option κ
  | .act y c => if y = x then some c else none
  | _ => none

theorem FamilyEvent.actOn_self (x : ν) (c : κ) : (FamilyEvent.act x c).actOn x = some c :=
    if_pos rfl

theorem FamilyEvent.actOn_of_ne {y : ν} (h : x ≠ y) (c : κ) :
    (FamilyEvent.act y c).actOn x = none :=
  if_neg (Ne.symm h)

/-- A system that is not there has not been asked for anything. -/
theorem Run.actOn_eq_nil (run : Run (FamilyStep init act) (fun _ => none) steps fs)
    (h : fs x = none) :
    (steps.map Prod.snd).filterMap (FamilyEvent.actOn x) = [] := by
  induction run with
  | nil => rfl
  | @snoc steps fs fs' e run hstep ih =>
    rw [List.map_append, List.map_singleton, List.filterMap_append]
    cases hstep with
    | @make y new =>
      by_cases hy : x = y
      · rw [hy, Function.update_self] at h
        cases h
      · rw [Function.update_of_ne hy] at h
        rw [ih h]
        rfl
    | @act y a a' c there step =>
      by_cases hy : x = y
      · rw [hy, Function.update_self] at h
        cases h
      · rw [Function.update_of_ne hy] at h
        rw [ih h]
        exact List.filterMap_cons_none (FamilyEvent.actOn_of_ne hy c)
    | silent =>
      rw [ih h]
      rfl

/-- What a system of the family has done is a run of its own, of just the steps it was asked for. -/
theorem Run.member (run : Run (FamilyStep init act) (fun _ => none) steps fs) (h : fs x = some a) :
    ∃ asteps, Run act init asteps a ∧
      asteps.map Prod.snd = (steps.map Prod.snd).filterMap (FamilyEvent.actOn x) := by
  induction run generalizing a with
  | nil => cases h
  | @snoc steps fs fs' e run hstep ih =>
    rw [List.map_append, List.map_singleton, List.filterMap_append]
    cases hstep with
    | @make y new =>
      by_cases hy : x = y
      · subst hy
        rw [Function.update_self] at h
        obtain rfl := Option.some.inj h
        exact ⟨[], .nil, by rw [run.actOn_eq_nil new]; rfl⟩
      · rw [Function.update_of_ne hy] at h
        obtain ⟨asteps, arun, hlabels⟩ := ih h
        exact ⟨asteps, arun, by rw [hlabels]; exact (List.append_nil _).symm⟩
    | @act y b b' c there step =>
      by_cases hy : x = y
      · subst hy
        rw [Function.update_self] at h
        obtain rfl := Option.some.inj h
        obtain ⟨asteps, arun, hlabels⟩ := ih there
        refine ⟨_, arun.snoc step, ?_⟩
        rw [List.map_append, List.map_singleton, hlabels,
          List.filterMap_cons_some (FamilyEvent.actOn_self x c), List.filterMap_nil]
      · rw [Function.update_of_ne hy] at h
        obtain ⟨asteps, arun, hlabels⟩ := ih h
        refine ⟨asteps, arun, ?_⟩
        rw [hlabels, List.filterMap_cons_none (FamilyEvent.actOn_of_ne hy c), List.filterMap_nil,
          List.append_nil]
    | silent =>
      obtain ⟨asteps, arun, hlabels⟩ := ih h
      exact ⟨asteps, arun, by rw [hlabels]; exact (List.append_nil _).symm⟩

end Family

end LabelledRun
