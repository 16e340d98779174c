import Mathlib

/-! # Labelled transition systems

A system is a relation `step s e t` on states, labelled by events.  `Run step s es t` records
a finite run together with the list of its events, oldest first, so that a condition on the
inputs of a run can be read off its labels.

* `Guarded step ok` keeps only the steps whose event is admitted by `ok` in the state before
  it.  A run of `Guarded step ok` is a run of `step` all of whose steps meet the condition.
* `Run.invariant` is the induction over runs: what holds initially and is kept by every step
  holds in every state reached.
* `Run.invariant_trace` is the same rule for a property of the state and of the events so far.
* `Run.entered` finds the step that brought a property about, `Run.map` reads a run as a run of
  another system. -/

namespace Remudero.Lib

variable {σ ε : Type*}

/-- `Run step s es t`: the events `es` lead from `s` to `t`. -/
inductive Run (step : σ → ε → σ → Prop) (s : σ) : List ε → σ → Prop
  | nil : Run step s [] s
  | snoc {es : List ε} {t u : σ} {e : ε} :
      Run step s es t → step t e u → Run step s (es ++ [e]) u

/-- The steps admitted by `ok`, a condition on the state before the step and on its event. -/
def Guarded (step : σ → ε → σ → Prop) (ok : σ → ε → Prop) : σ → ε → σ → Prop :=
  fun s e t => step s e t ∧ ok s e

namespace Run

variable {step : σ → ε → σ → Prop} {s t u : σ} {es fs : List ε} {e : ε}

theorem single (h : step s e t) : Run step s [e] t := by
  have h0 : Run step s [] s := Run.nil
  simpa using h0.snoc h

theorem append (h₁ : Run step s es t) (h₂ : Run step t fs u) : Run step s (es ++ fs) u := by
  induction h₂ with
  | nil => simpa using h₁
  | snoc _ hs ih =>
      rw [← List.append_assoc]
      exact Run.snoc ih hs

theorem cons (h : step s e t) (hr : Run step t es u) : Run step s (e :: es) u := by
  simpa using (Run.single h).append hr

/-- A run of a larger step relation. -/
theorem mono {step' : σ → ε → σ → Prop} (h : ∀ s e t, step s e t → step' s e t)
    (hr : Run step s es t) : Run step' s es t := by
  induction hr with
  | nil => exact Run.nil
  | snoc _ hs ih => exact Run.snoc ih (h _ _ _ hs)

/-- Forget the condition of a guarded run. -/
theorem of_guarded {ok : σ → ε → Prop} (hr : Run (Guarded step ok) s es t) : Run step s es t :=
  hr.mono fun _ _ _ h => h.1

/-- A run whose events all meet the condition in every state. -/
theorem guarded {ok : σ → ε → Prop} (hr : Run step s es t) (h : ∀ e ∈ es, ∀ s, ok s e) :
    Run (Guarded step ok) s es t := by
  induction hr with
  | nil => exact Run.nil
  | snoc _ hs ih =>
      exact Run.snoc (ih fun e he => h e (List.mem_append_left _ he)) ⟨hs, h _ (by simp) _⟩

/-- What every step keeps holds in every state of a run. -/
theorem invariant {I : σ → Prop} (hstep : ∀ s e t, I s → step s e t → I t)
    (hr : Run step s es t) (h0 : I s) : I t := by
  induction hr with
  | nil => exact h0
  | snoc _ hs ih => exact hstep _ _ _ ih hs

/-- The invariant rule for a property of the state and the events so far. -/
theorem invariant_trace {I : List ε → σ → Prop}
    (hstep : ∀ es s e t, I es s → step s e t → I (es ++ [e]) t)
    (hr : Run step s es t) (h0 : I [] s) : I es t := by
  induction hr with
  | nil => exact h0
  | snoc _ hs ih => exact hstep _ _ _ _ ih hs

/-- The state before the last event of a run. -/
theorem snoc_inv (hr : Run step s (es ++ [e]) u) : ∃ t, Run step s es t ∧ step t e u := by
  generalize h : es ++ [e] = fs at hr
  cases hr with
  | nil => simp at h
  | @snoc es' t _ e' hr hs =>
      obtain ⟨rfl, he⟩ := List.append_inj' h rfl
      obtain rfl := List.singleton_inj.mp he
      exact ⟨t, hr, hs⟩

/-- A run whose labels split in two passes through an intermediate state. -/
theorem split (hr : Run step s (es ++ fs) u) : ∃ t, Run step s es t ∧ Run step t fs u := by
  induction fs using List.reverseRecOn generalizing u with
  | nil => exact ⟨u, by simpa using hr, Run.nil⟩
  | append_singleton fs f ih =>
      rw [← List.append_assoc] at hr
      obtain ⟨v, hv, hs⟩ := hr.snoc_inv
      obtain ⟨t, h1, h2⟩ := ih hv
      exact ⟨t, h1, h2.snoc hs⟩

/-- What holds at the end of a run and not at its start was brought about by one of its steps. -/
theorem entered {P : σ → Prop} (hr : Run step s es t) (hs : ¬ P s) (ht : P t) :
    ∃ es₁ e es₂ u v, es = es₁ ++ e :: es₂ ∧ Run step s es₁ u ∧ step u e v ∧ Run step v es₂ t ∧ ¬ P u ∧ P v := by
  induction hr with
  | nil => exact absurd ht hs
  | @snoc es t w e hr hstep ih =>
      by_cases hp : P t
      · obtain ⟨es₁, f, es₂, u, v, rfl, h₁, hf, h₂, hu, hv⟩ := ih hp
        exact ⟨es₁, f, es₂ ++ [e], u, v, by simp, h₁, hf, h₂.snoc hstep, hu, hv⟩
      · exact ⟨es, e, [], t, w, rfl, hr, hstep, .nil, hp, ht⟩

/-- A run of a system whose steps another system follows. -/
theorem map {σ' ε' : Type*} {step' : σ' → ε' → σ' → Prop} {f : σ → σ'} {g : ε → ε'}
    (h : ∀ s e t, step s e t → step' (f s) (g e) (f t)) (hr : Run step s es t) :
    Run step' (f s) (es.map g) (f t) := by
  induction hr with
  | nil => exact Run.nil
  | snoc _ hs ih =>
      rw [List.map_append]
      exact ih.snoc (h _ _ _ hs)

/-- Evaluating a partial step function along a list of events gives a run. -/
theorem of_foldlM {next : σ → ε → Option σ} (h : es.foldlM next s = some t) :
    Run (fun s e t => next s e = some t) s es t := by
  induction es generalizing s with
  | nil =>
      obtain rfl := Option.some.inj h
      exact Run.nil
  | cons e es ih =>
      rw [List.foldlM_cons, Option.bind_eq_bind, Option.bind_eq_some_iff] at h
      obtain ⟨u, hu, hr⟩ := h
      have h1 : (fun s e t => next s e = some t) s e u := hu
      exact Run.cons h1 (ih hr)

end Run

end Remudero.Lib
