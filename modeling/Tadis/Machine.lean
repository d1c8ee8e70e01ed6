import Mathlib.Data.List.Induction
import Mathlib.Tactic.Common

/-!
# Machines that answer calls

A machine is a function `σ → ε → Option (α × σ)`: a call is answered or goes wrong. A specification
answers every call, but only the calls that `Ok` allows are its business. A machine implements a
specification if, from related states, every allowed call is answered as specified and leads to
related states; it then answers every allowed run as specified. A machine follows another one if it
answers related calls alike, whatever these are.
-/

namespace Machine

variable {σ τ ε α : Type*}

/-- The answers to a list of calls, and the last state. -/
def run (step : τ → ε → Option (α × τ)) : τ → List ε → Option (List α × τ)
  | s, [] => some ([], s)
  | s, e :: es =>
    (step s e).bind (fun x => (run step x.2 es).map (fun y => (x.1 :: y.1, y.2)))

def answers (spec : σ → ε → α × σ) : σ → List ε → List α × σ
  | s, [] => ([], s)
  | s, e :: es => ((spec s e).1 :: (answers spec (spec s e).2 es).1, (answers spec (spec s e).2 es).2)

theorem run_invariant {step : τ → ε → Option (α × τ)} {I : τ → Prop}
    (hstep : ∀ s e a t, I s → step s e = some (a, t) → I t) {s t : τ} {es : List ε} {as : List α}
    (hs : I s) (h : run step s es = some (as, t)) : I t := by
  induction es generalizing s as with
  | nil =>
    cases h
    exact hs
  | cons e es ih =>
    obtain ⟨⟨a, u⟩, hu, h⟩ := Option.bind_eq_some_iff.1 h
    obtain ⟨⟨bs, v⟩, hv, h⟩ := Option.map_eq_some_iff.1 h
    cases h
    exact ih (hstep s e a u hs hu) hv

/-- Every call is allowed in the state in which it is made. -/
def Allowed (spec : σ → ε → α × σ) (Ok : σ → ε → Prop) : σ → List ε → Prop
  | _, [] => True
  | s, e :: es => Ok s e ∧ Allowed spec Ok (spec s e).2 es

/-- Decide along the run whether every call is allowed. -/
def decideAllowed (spec : σ → ε → α × σ) (Ok : σ → ε → Prop) [∀ s e, Decidable (Ok s e)] :
    (s : σ) → (es : List ε) → Decidable (Allowed spec Ok s es)
  | _, [] => isTrue trivial
  | s, e :: es => @instDecidableAnd _ _ _ (decideAllowed spec Ok (spec s e).2 es)

instance (spec : σ → ε → α × σ) (Ok : σ → ε → Prop) [∀ s e, Decidable (Ok s e)] (s : σ)
    (es : List ε) : Decidable (Allowed spec Ok s es) := decideAllowed spec Ok s es

/-- Every allowed call is answered as specified, and related states are reached. -/
def Implements (step : τ → ε → Option (α × τ)) (spec : σ → ε → α × σ) (Ok : σ → ε → Prop)
    (R : τ → σ → Prop) : Prop :=
  ∀ a s e, R a s → Ok s e → ∃ b, step a e = some ((spec s e).1, b) ∧ R b (spec s e).2

variable {step : τ → ε → Option (α × τ)} {spec : σ → ε → α × σ} {Ok : σ → ε → Prop}
  {R : τ → σ → Prop} {s : σ} {a : τ} {es es' : List ε}

theorem Implements.run (hR : Implements step spec Ok R) (ha : R a s) (h : Allowed spec Ok s es) :
    ∃ b, run step a es = some ((answers spec s es).1, b) ∧ R b (answers spec s es).2 := by
  induction es generalizing a s with
  | nil => exact ⟨a, rfl, ha⟩
  | cons e es ih =>
    obtain ⟨b, hb, hRb⟩ := hR a s e ha h.1
    obtain ⟨c, hc, hRc⟩ := ih hRb h.2
    refine ⟨c, ?_, hRc⟩
    rw [Machine.run, hb, Option.bind_some, hc, Option.map_some]
    rfl

theorem allowed_append : Allowed spec Ok s (es ++ es') ↔
    Allowed spec Ok s es ∧ Allowed spec Ok (answers spec s es).2 es' := by
  induction es generalizing s with
  | nil => simp [Allowed, answers]
  | cons e es ih => simp [Allowed, answers, ih, and_assoc]

theorem answers_append : answers spec s (es ++ es') =
    ((answers spec s es).1 ++ (answers spec (answers spec s es).2 es').1,
      (answers spec (answers spec s es).2 es').2) := by
  induction es generalizing s with
  | nil => rfl
  | cons e es ih => rw [List.cons_append, answers, ih]; rfl

section

variable {β : Type*} {calls : β → List ε} {bs : List β}

theorem answers_batches (spec : σ → ε → α × σ) (calls : β → List ε) (s : σ) (bs : List β) :
    answers spec s (bs.flatMap calls) =
      ((answers (fun s b => answers spec s (calls b)) s bs).1.flatten,
        (answers (fun s b => answers spec s (calls b)) s bs).2) := by
  induction bs generalizing s with
  | nil => rfl
  | cons b bs ih => rw [List.flatMap_cons, answers_append, ih]; rfl

theorem allowed_batches : Allowed (fun s b => answers spec s (calls b))
    (fun s b => Allowed spec Ok s (calls b)) s bs ↔ Allowed spec Ok s (bs.flatMap calls) := by
  induction bs generalizing s with
  | nil => exact Iff.rfl
  | cons b bs ih => rw [List.flatMap_cons, allowed_append, Allowed, ih]

end

section

variable {p : α → Bool}

/-- The calls whose answers satisfy `p`. -/
def picked (p : α → Bool) (es : List ε) (as : List α) : List ε :=
  ((es.zip as).filter (fun x => p x.2)).map Prod.fst

theorem picked_cons_of_pos {e : ε} {a : α} {as : List α} (h : p a = true) :
    picked p (e :: es) (a :: as) = e :: picked p es as := by
  rw [picked, List.zip_cons_cons, List.filter_cons, if_pos h, List.map_cons]
  rfl

theorem picked_cons_of_neg {e : ε} {a : α} {as : List α} (h : p a = false) :
    picked p (e :: es) (a :: as) = picked p es as := by
  rw [picked, List.zip_cons_cons, List.filter_cons, if_neg (by simp [h])]
  rfl

theorem answers_picked (hp : ∀ s e, p (spec s e).1 = false → (spec s e).2 = s) :
    answers spec s (picked p es (answers spec s es).1) =
      ((answers spec s es).1.filter p, (answers spec s es).2) := by
  induction es generalizing s with
  | nil => rfl
  | cons e es ih =>
    rw [answers]
    dsimp only
    cases ha : p (spec s e).1 with
    | true => rw [picked_cons_of_pos ha, List.filter_cons_of_pos ha, answers, ih]
    | false =>
      have hs := hp s e ha
      rw [picked_cons_of_neg ha, List.filter_cons_of_neg (by simp [ha]), hs, ih]

theorem Allowed.picked (hp : ∀ s e, p (spec s e).1 = false → (spec s e).2 = s)
    (h : Allowed spec Ok s es) : Allowed spec Ok s (picked p es (answers spec s es).1) := by
  induction es generalizing s with
  | nil => exact trivial
  | cons e es ih =>
    obtain ⟨he, hes⟩ := h
    rw [answers]
    dsimp only
    cases ha : p (spec s e).1 with
    | true =>
      rw [picked_cons_of_pos ha]
      exact ⟨he, ih hes⟩
    | false =>
      rw [picked_cons_of_neg ha]
      have hes := ih hes
      rwa [hp s e ha] at hes ⊢

end

section

variable {τ' ε' : Type*} {next : τ → ε → Option (α × τ)} {next' : τ' → ε' → Option (α × τ')}
  {S : τ' → τ → Prop} {C : ε' → ε → Prop}

/-- From related states `next'` answers a related call as `next` does, and related states are reached. -/
def Follows (next' : τ' → ε' → Option (α × τ')) (next : τ → ε → Option (α × τ)) (S : τ' → τ → Prop)
    (C : ε' → ε → Prop) : Prop :=
  ∀ a s e' e x t, S a s → C e' e → next s e = some (x, t) → ∃ b, next' a e' = some (x, b) ∧ S b t

theorem Follows.run (h : Follows next' next S C) {calls' : List ε'} {calls : List ε}
    (hc : List.Forall₂ C calls' calls) {a : τ'} {s t : τ} {as : List α} (ha : S a s)
    (hr : run next s calls = some (as, t)) :
    ∃ b, Machine.run next' a calls' = some (as, b) ∧ S b t := by
  induction hc generalizing a s as with
  | nil =>
    cases hr
    exact ⟨a, rfl, ha⟩
  | cons hcall _ ih =>
    obtain ⟨⟨x, u⟩, hu, hr⟩ := Option.bind_eq_some_iff.1 hr
    obtain ⟨⟨bs, v⟩, hv, heq⟩ := Option.map_eq_some_iff.1 hr
    cases heq
    obtain ⟨b, hb, hR⟩ := h a s _ _ _ _ ha hcall hu
    obtain ⟨b', hb', hR'⟩ := ih hR hv
    refine ⟨b', ?_, hR'⟩
    rw [Machine.run, hb, Option.bind_some, hb', Option.map_some]

end

end Machine
