import Mathlib.Data.List.Induction
import Mathlib.Tactic.Common

/-!
# Runs and forward simulation

A system is given by its step relation `σ → ε → σ → Prop`, whose middle argument is the observable
event of the step. A forward simulation relates the states of two systems so that every step of the
first is matched by a step of the second with the same event. Runs are then matched as well. A run of
a function is a fold; a property holds throughout such a run exactly when every step keeps it.
-/

namespace Transition

variable {σ τ ε : Type*}

inductive Run (step : σ → ε → σ → Prop) : σ → List ε → σ → Prop
  | nil (s : σ) : Run step s [] s
  | cons {s t u : σ} {e : ε} {es : List ε} (h : step s e t) (hr : Run step t es u) :
      Run step s (e :: es) u

variable {step : σ → ε → σ → Prop} {spec : τ → ε → τ → Prop} {s t u : σ} {e : ε} {es es' : List ε}

theorem Run.single (h : step s e t) : Run step s [e] t := .cons h (.nil t)

theorem Run.append (h : Run step s es t) (h' : Run step t es' u) : Run step s (es ++ es') u := by
  induction h with
  | nil => exact h'
  | cons hs _ ih => exact .cons hs (ih h')

theorem Run.invariant {I : σ → Prop} (hstep : ∀ s e t, I s → step s e t → I t)
    (h : Run step s es t) (hs : I s) : I t := by
  induction h with
  | nil => exact hs
  | cons h _ ih => exact ih (hstep _ _ _ hs h)

/-- Every step from a related state is matched, and leads to related states. -/
def Simulates (step : σ → ε → σ → Prop) (spec : τ → ε → τ → Prop) (R : σ → τ → Prop) : Prop :=
  ∀ s a e t, R s a → step s e t → ∃ b, spec a e b ∧ R t b

theorem Simulates.run {R : σ → τ → Prop} (hR : Simulates step spec R) {a : τ}
    (h : Run step s es t) (hs : R s a) : ∃ b, Run spec a es b ∧ R t b := by
  induction h generalizing a with
  | nil => exact ⟨a, .nil a, hs⟩
  | cons h _ ih =>
    obtain ⟨b, hb, hRb⟩ := hR _ _ _ _ hs h
    obtain ⟨c, hc, hRc⟩ := ih hRb
    exact ⟨c, .cons hb hc, hRc⟩

/-- Some run from `s` to `t` with the given events passes through `u`. -/
def Visited (step : σ → ε → σ → Prop) (s : σ) (es : List ε) (t u : σ) : Prop :=
  ∃ pre post, es = pre ++ post ∧ Run step s pre u ∧ Run step u post t

/-- Some run from `s` to `t` with the given events takes a step with event `e` in state `u`. -/
def Taken (step : σ → ε → σ → Prop) (s : σ) (es : List ε) (t u : σ) (e : ε) : Prop :=
  ∃ pre post v, es = pre ++ e :: post ∧ Run step s pre u ∧ step u e v ∧ Run step v post t

theorem Visited.extend (h : Visited step s es t u) {v : σ} (hr : Run step t es' v) :
    Visited step s (es ++ es') v u := by
  obtain ⟨pre, post, rfl, hpre, hpost⟩ := h
  exact ⟨pre, post ++ es', List.append_assoc _ _ _, hpre, hpost.append hr⟩

theorem Taken.extend (h : Taken step s es t u e) {v : σ} (hr : Run step t es' v) :
    Taken step s (es ++ es') v u e := by
  obtain ⟨pre, post, w, rfl, hpre, hs, hpost⟩ := h
  exact ⟨pre, post ++ es', w, by rw [List.append_assoc, List.cons_append], hpre, hs, hpost.append hr⟩

variable {f : σ → ε → σ} {I P : σ → Prop} {Q : σ → ε → Prop}

theorem Run.invariant_of_taken (hstep : ∀ s e t, I s → step s e t → Q s e → I t)
    (h : Run step s es t) (hs : I s) (hQ : ∀ u e, Taken step s es t u e → Q u e) : I t := by
  induction h with
  | nil => exact hs
  | @cons s v t e es h hr ih =>
    refine ih (hstep s e v hs h (hQ s e ⟨[], es, v, rfl, .nil s, h, hr⟩)) fun u e' hu => hQ u e' ?_
    obtain ⟨pre, post, w, rfl, hpre, hw, hpost⟩ := hu
    exact ⟨e :: pre, post, w, rfl, .cons h hpre, hw, hpost⟩

theorem Run.invariant_of_visited (hstep : ∀ s e t, I s → step s e t → P t → I t)
    (h : Run step s es t) (hs : I s) (hP : ∀ u, Visited step s es t u → P u) : I t := by
  induction h with
  | nil => exact hs
  | @cons s v t e es h hr ih =>
    refine ih (hstep s e v hs h (hP v ⟨[e], es, rfl, .single h, hr⟩)) fun u hu => hP u ?_
    obtain ⟨pre, post, rfl, hpre, hpost⟩ := hu
    exact ⟨e :: pre, post, rfl, .cons h hpre, hpost⟩

/-- If under the invariant a step leads to a state with `P` exactly when it satisfies `Q`, and then
keeps the invariant, a run stays in `P` exactly when all its steps satisfy `Q`. -/
theorem forall_visited_iff (hP : ∀ s, I s → P s)
    (hstep : ∀ s e t, I s → step s e t → (P t ↔ Q s e) ∧ (Q s e → I t)) (hs : I s) :
    (∀ u, Visited step s es t u → P u) ↔ ∀ u e, Taken step s es t u e → Q u e := by
  constructor
  · rintro h u e ⟨pre, post, v, rfl, hpre, hv, hpost⟩
    have hI : I u := by
      refine hpre.invariant_of_visited (P := P) ?_ hs fun w hw => h w (hw.extend (.cons hv hpost))
      exact fun s e t hs hst hPt => (hstep s e t hs hst).2 ((hstep s e t hs hst).1.1 hPt)
    refine (hstep u e v hI hv).1.1 (h v ⟨pre ++ [e], post, ?_, hpre.append (.single hv), hpost⟩)
    rw [List.append_assoc, List.singleton_append]
  · rintro h u ⟨pre, post, rfl, hpre, hpost⟩
    refine hP u (hpre.invariant_of_taken (Q := Q) ?_ hs fun w e hw => h w e (hw.extend hpost))
    exact fun s e t hs hst => (hstep s e t hs hst).2

theorem invariant_foldl (hstep : ∀ s e, I s → Q s e → I (f s e)) (hs : I s)
    (hQ : ∀ pre e, pre ++ [e] <+: es → Q (pre.foldl f s) e) :
    ∀ pre, pre <+: es → I (pre.foldl f s) := by
  intro pre
  induction pre using List.reverseRecOn with
  | nil => exact fun _ => hs
  | append_singleton pre e ih =>
    intro hp
    have hpre := ih ((List.prefix_append pre [e]).trans hp)
    rw [List.foldl_append]
    exact hstep _ _ hpre (hQ pre e hp)

/-- If under the invariant a step leads to a state with `P` exactly when it satisfies `Q`, and then
keeps the invariant, a run stays in `P` exactly when all its steps satisfy `Q`. -/
theorem forall_foldl_iff (hP : ∀ s, I s → P s)
    (hstep : ∀ s e, I s → (P (f s e) ↔ Q s e) ∧ (Q s e → I (f s e))) (hs : I s) (es : List ε) :
    (∀ pre, pre <+: es → P (pre.foldl f s)) ↔
      ∀ pre e, pre ++ [e] <+: es → Q (pre.foldl f s) e := by
  constructor
  · intro h pre
    -- a longer prefix is reached only through steps that satisfy `Q`
    induction hn : pre.length using Nat.strongRecOn generalizing pre with
    | ind m ih =>
      intro e hp
      have hle := (List.prefix_append pre [e]).trans hp
      have hpre : ∀ pre' e', pre' ++ [e'] <+: pre → Q (pre'.foldl f s) e' := by
        intro pre' e' hp'
        have hlen := hp'.length_le
        rw [List.length_append, List.length_singleton] at hlen
        exact ih pre'.length (by omega) pre' rfl e' (hp'.trans hle)
      have hI := invariant_foldl (fun s e hs => (hstep s e hs).2) hs hpre pre List.prefix_rfl
      have hnext := h (pre ++ [e]) hp
      rw [List.foldl_append] at hnext
      exact (hstep _ _ hI).1.1 hnext
  · intro h pre hp
    exact hP _ (invariant_foldl (fun s e hs => (hstep s e hs).2) hs h pre hp)

end Transition
