import Mathlib.Tactic.Common

/-!
# Pull iterators

An iterator is a function `next : σ → Option (Except ρ α × σ)`: a call delivers an element or stops
with a reason, and `none` is a call that goes wrong. `Drains next s xs r t` says that pulling from
`s` delivers exactly the elements `xs`, then stops with `r` in state `t`. `filter` skips elements in a
loop with fuel, `map` transforms each element; what they deliver is the filtered or mapped list. What
every call keeps, or shares with another iterator, is kept or shared by what is built from it.
-/

namespace Pull

variable {σ α β ρ : Type*}

inductive Drains (next : σ → Option (Except ρ α × σ)) : σ → List α → ρ → σ → Prop
  | stop {s t : σ} {r : ρ} (h : next s = some (.error r, t)) : Drains next s [] r t
  | pull {s t u : σ} {a : α} {xs : List α} {r : ρ} (h : next s = some (.ok a, t))
      (hd : Drains next t xs r u) : Drains next s (a :: xs) r u

variable {next : σ → Option (Except ρ α × σ)} {s t u : σ} {xs ys : List α} {r q : ρ}

theorem Drains.unique (h : Drains next s xs r t) (h' : Drains next s ys q u) :
    xs = ys ∧ r = q ∧ t = u := by
  induction h generalizing ys with
  | stop h =>
    cases h' with
    | stop h' =>
      rw [h] at h'
      obtain ⟨rfl, rfl⟩ := by simpa using h'
      exact ⟨rfl, rfl, rfl⟩
    | pull h' _ =>
      rw [h] at h'
      cases h'
  | pull h _ ih =>
    cases h' with
    | stop h' =>
      rw [h] at h'
      cases h'
    | pull h' hd' =>
      rw [h] at h'
      obtain ⟨rfl, rfl⟩ := by simpa using h'
      obtain ⟨rfl, rfl, rfl⟩ := ih hd'
      exact ⟨rfl, rfl, rfl⟩

theorem Drains.congr (hs : next s = next t) (h : Drains next t xs r u) : Drains next s xs r u := by
  cases h with
  | stop h => exact .stop (hs.trans h)
  | pull h hd => exact .pull (hs.trans h) hd

section

variable {τ : Type*} {next' : τ → Option (Except ρ α × τ)} {R : τ → σ → Prop} {a : τ}

/-- From related states `next'` answers as `next` does, and related states are reached. -/
def Follows (next' : τ → Option (Except ρ α × τ)) (next : σ → Option (Except ρ α × σ))
    (R : τ → σ → Prop) : Prop :=
  ∀ a s x t, R a s → next s = some (x, t) → ∃ b, next' a = some (x, b) ∧ R b t

theorem Drains.simulate (hR : Follows next' next R) (h : Drains next s xs r t) (ha : R a s) :
    ∃ b, Drains next' a xs r b ∧ R b t := by
  induction h generalizing a with
  | stop h =>
    obtain ⟨b, hb, hR'⟩ := hR _ _ _ _ ha h
    exact ⟨b, .stop hb, hR'⟩
  | pull h _ ih =>
    obtain ⟨b, hb, hR'⟩ := hR _ _ _ _ ha h
    obtain ⟨b', hd, hR''⟩ := ih hR'
    exact ⟨b', .pull hb hd, hR''⟩

end

/-- An iterator that answers from `g s` as another one answers from `s`, with `f` of its elements. -/
theorem Drains.embed {τ : Type*} {next' : τ → Option (Except ρ β × τ)} (f : α → β) (g : σ → τ)
    (hg : ∀ s, next' (g s) = (next s).map (fun x => (x.1.map f, g x.2)))
    (h : Drains next s xs r t) : Drains next' (g s) (xs.map f) r (g t) := by
  induction h with
  | stop h =>
    refine .stop ?_
    rw [hg, h]
    rfl
  | pull h _ ih =>
    refine .pull ?_ ih
    rw [hg, h]
    rfl

/-- Pull from a list, then stop with `r`. -/
def fromList (r : ρ) : List α → Option (Except ρ α × List α)
  | [] => some (.error r, [])
  | a :: xs => some (.ok a, xs)

theorem drains_fromList (r : ρ) (xs : List α) : Drains (fromList r) xs xs r [] := by
  induction xs with
  | nil => exact .stop rfl
  | cons a xs ih => exact .pull rfl ih

/-- Pull until the iterator stops, at most `fuel` times. -/
def collect (next : σ → Option (Except ρ α × σ)) : ℕ → σ → Option (List α × ρ × σ)
  | 0, _ => none
  | fuel + 1, s =>
    match next s with
    | none => none
    | some (.error r, s) => some ([], r, s)
    | some (.ok a, s) => (collect next fuel s).map (fun x => (a :: x.1, x.2))

theorem Drains.collect (h : Drains next s xs r t) {fuel : ℕ} (hf : xs.length < fuel) :
    collect next fuel s = some (xs, r, t) := by
  induction h generalizing fuel with
  | stop h =>
    obtain ⟨k, rfl⟩ := Nat.exists_eq_succ_of_ne_zero (Nat.ne_zero_of_lt hf)
    rw [Pull.collect, h]
  | pull h _ ih =>
    obtain ⟨k, rfl⟩ := Nat.exists_eq_succ_of_ne_zero (Nat.ne_zero_of_lt hf)
    rw [List.length_cons] at hf
    rw [Pull.collect, h]
    dsimp only
    rw [ih (by omega), Option.map_some]

/-- Pull until an element satisfies `p`, at most `fuel` times. -/
def filter (p : α → Option Bool) (next : σ → Option (Except ρ α × σ)) :
    ℕ → σ → Option (Except ρ α × σ)
  | 0, _ => none
  | fuel + 1, s =>
    match next s with
    | none => none
    | some (.error r, s) => some (.error r, s)
    | some (.ok a, s) =>
      match p a with
      | none => none
      | some true => some (.ok a, s)
      | some false => filter p next fuel s

def map (f : α → Option β) (next : σ → Option (Except ρ α × σ)) (s : σ) :
    Option (Except ρ β × σ) :=
  match next s with
  | none => none
  | some (.error r, s) => some (.error r, s)
  | some (.ok a, s) => (f a).map (fun b => (.ok b, s))

variable {p : α → Option Bool} {q : α → Bool} {f : α → Option β} {fuel fuel' : ℕ}

theorem filter_stop (h : next s = some (.error r, t)) :
    filter p next (fuel + 1) s = some (.error r, t) := by
  rw [filter, h]

theorem filter_keep {a : α} (h : next s = some (.ok a, t)) (ha : p a = some true) :
    filter p next (fuel + 1) s = some (.ok a, t) := by
  rw [filter, h]
  dsimp only
  rw [ha]

theorem filter_skip {a : α} (h : next s = some (.ok a, t)) (ha : p a = some false) :
    filter p next (fuel + 1) s = filter p next fuel t := by
  rw [filter, h]
  dsimp only
  rw [ha]

theorem filter_fail {a : α} (h : next s = some (.ok a, t)) (ha : p a = none) :
    filter p next (fuel + 1) s = none := by
  rw [filter, h]
  dsimp only
  rw [ha]

theorem filter_fuel (h : Drains next s xs r t) (hf : xs.length < fuel) (hf' : xs.length < fuel') :
    filter p next fuel s = filter p next fuel' s := by
  induction h generalizing fuel fuel' with
  | stop h =>
    obtain ⟨k, rfl⟩ := Nat.exists_eq_succ_of_ne_zero (Nat.ne_zero_of_lt hf)
    obtain ⟨k', rfl⟩ := Nat.exists_eq_succ_of_ne_zero (Nat.ne_zero_of_lt hf')
    rw [filter_stop h, filter_stop h]
  | @pull s t u a xs r h _ ih =>
    obtain ⟨k, rfl⟩ := Nat.exists_eq_succ_of_ne_zero (Nat.ne_zero_of_lt hf)
    obtain ⟨k', rfl⟩ := Nat.exists_eq_succ_of_ne_zero (Nat.ne_zero_of_lt hf')
    rw [List.length_cons] at hf hf'
    rcases ha : p a with _ | _ | _
    · rw [filter_fail h ha, filter_fail h ha]
    · rw [filter_skip h ha, filter_skip h ha]
      exact ih (by omega) (by omega)
    · rw [filter_keep h ha, filter_keep h ha]

theorem Drains.filter (h : Drains next s xs r t) (hp : ∀ a ∈ xs, p a = some (q a))
    (hf : xs.length < fuel) : Drains (filter p next fuel) s (xs.filter q) r t := by
  induction h with
  | stop h =>
    obtain ⟨k, rfl⟩ := Nat.exists_eq_succ_of_ne_zero (Nat.ne_zero_of_lt hf)
    exact .stop (filter_stop h)
  | @pull s t u a xs r h hd ih =>
    obtain ⟨k, rfl⟩ := Nat.exists_eq_succ_of_ne_zero (Nat.ne_zero_of_lt hf)
    have ha := hp a List.mem_cons_self
    have hp' : ∀ b ∈ xs, p b = some (q b) := fun b hb => hp b (List.mem_cons_of_mem _ hb)
    rw [List.length_cons] at hf
    have ih := ih hp' (by omega)
    cases hq : q a
    · rw [hq] at ha
      rw [List.filter_cons_of_neg (by simp [hq])]
      refine .congr ?_ ih
      rw [filter_skip h ha]
      exact filter_fuel hd (by omega) (by omega)
    · rw [hq] at ha
      rw [List.filter_cons_of_pos hq]
      exact .pull (filter_keep h ha) ih

theorem Drains.map {R : α → β → Prop} (h : Drains next s xs r t)
    (hf : ∀ a ∈ xs, ∃ b, f a = some b ∧ R a b) :
    ∃ ys, List.Forall₂ R xs ys ∧ Drains (map f next) s ys r t := by
  induction h with
  | stop h => exact ⟨[], .nil, .stop (by rw [Pull.map, h])⟩
  | @pull s t u a xs r h _ ih =>
    obtain ⟨b, hb, hR⟩ := hf a List.mem_cons_self
    obtain ⟨ys, hys, hd⟩ := ih (fun c hc => hf c (List.mem_cons_of_mem _ hc))
    have hstep : Pull.map f next s = some (.ok b, t) := by
      rw [Pull.map, h]
      dsimp only
      rw [hb, Option.map_some]
    exact ⟨b :: ys, .cons hR hys, .pull hstep hd⟩

/-- A call keeps `I`, and stops with a reason in `E` only. -/
def Keeps (next : σ → Option (Except ρ α × σ)) (I : σ → Prop) (E : ρ → Prop) : Prop :=
  ∀ s x t, I s → next s = some (x, t) → I t ∧ ∀ r, x = .error r → E r

variable {I : σ → Prop} {E : ρ → Prop}

theorem Keeps.filter (h : Keeps next I E) (p : α → Option Bool) (fuel : ℕ) :
    Keeps (filter p next fuel) I E := by
  induction fuel with
  | zero =>
    intro s x t _ hn
    cases hn
  | succ fuel ih =>
    intro s x t hI hn
    rw [Pull.filter] at hn
    rcases hs : next s with _ | ⟨r | a, u⟩ <;> rw [hs] at hn <;> dsimp only at hn
    · cases hn
    · cases hn
      exact h s _ _ hI hs
    · have hu := (h s _ _ hI hs).1
      rcases hp : p a with _ | _ | _ <;> rw [hp] at hn <;> dsimp only at hn
      · cases hn
      · exact ih u x t hu hn
      · cases hn
        exact ⟨hu, fun r hr => by cases hr⟩

theorem Keeps.map (h : Keeps next I E) (f : α → Option β) : Keeps (map f next) I E := by
  intro s x t hI hn
  rw [Pull.map] at hn
  rcases hs : next s with _ | ⟨r | a, u⟩ <;> rw [hs] at hn <;> dsimp only at hn
  · cases hn
  · cases hn
    refine ⟨(h s _ _ hI hs).1, fun q hq => ?_⟩
    cases hq
    exact (h s _ _ hI hs).2 _ rfl
  · obtain ⟨b, _, hb⟩ := Option.map_eq_some_iff.1 hn
    cases hb
    exact ⟨(h s _ _ hI hs).1, fun q hq => by cases hq⟩

theorem Keeps.collect (h : Keeps next I E) {fuel : ℕ} (hs : I s)
    (hc : collect next fuel s = some (xs, r, t)) : I t ∧ E r := by
  induction fuel generalizing s xs with
  | zero => cases hc
  | succ fuel ih =>
    rw [Pull.collect] at hc
    rcases hn : next s with _ | ⟨q | a, u⟩ <;> rw [hn] at hc <;> dsimp only at hc
    · cases hc
    · cases hc
      exact ⟨(h s _ _ hs hn).1, (h s _ _ hs hn).2 _ rfl⟩
    · obtain ⟨⟨ys, q, v⟩, hy, hc⟩ := Option.map_eq_some_iff.1 hc
      cases hc
      exact ih (h s _ _ hs hn).1 hy

section

variable {τ : Type*} {next' : τ → Option (Except ρ α × τ)} {R : τ → σ → Prop} {a : τ}

theorem Follows.filter (h : Follows next' next R) (p : α → Option Bool) (fuel : ℕ) :
    Follows (filter p next' fuel) (filter p next fuel) R := by
  induction fuel with
  | zero =>
    intro a s x t _ hn
    cases hn
  | succ fuel ih =>
    intro a s x t ha hn
    rw [Pull.filter] at hn
    rcases hs : next s with _ | ⟨r | c, u⟩ <;> rw [hs] at hn <;> dsimp only at hn
    · cases hn
    · cases hn
      obtain ⟨b, hb, hR⟩ := h a s _ _ ha hs
      exact ⟨b, filter_stop hb, hR⟩
    · obtain ⟨b, hb, hR⟩ := h a s _ _ ha hs
      rcases hp : p c with _ | _ | _ <;> rw [hp] at hn <;> dsimp only at hn
      · cases hn
      · rw [filter_skip hb hp]
        exact ih b u x t hR hn
      · cases hn
        exact ⟨b, filter_keep hb hp, hR⟩

theorem Follows.map (h : Follows next' next R) (f : α → Option β) :
    Follows (map f next') (map f next) R := by
  intro a s x t ha hn
  rw [Pull.map] at hn
  rcases hs : next s with _ | ⟨r | c, u⟩ <;> rw [hs] at hn <;> dsimp only at hn
  · cases hn
  · cases hn
    obtain ⟨b, hb, hR⟩ := h a s _ _ ha hs
    exact ⟨b, by rw [Pull.map, hb], hR⟩
  · obtain ⟨y, hy, heq⟩ := Option.map_eq_some_iff.1 hn
    cases heq
    obtain ⟨b, hb, hR⟩ := h a s _ _ ha hs
    refine ⟨b, ?_, hR⟩
    rw [Pull.map, hb]
    dsimp only
    rw [hy, Option.map_some]

theorem Follows.collect (h : Follows next' next R) {fuel : ℕ} (ha : R a s)
    (hc : collect next fuel s = some (xs, r, t)) :
    ∃ b, Pull.collect next' fuel a = some (xs, r, b) ∧ R b t := by
  induction fuel generalizing a s xs with
  | zero => cases hc
  | succ fuel ih =>
    rw [Pull.collect] at hc
    rcases hn : next s with _ | ⟨q | c, u⟩ <;> rw [hn] at hc <;> dsimp only at hc
    · cases hc
    · cases hc
      obtain ⟨b, hb, hR⟩ := h a s _ _ ha hn
      exact ⟨b, by rw [Pull.collect, hb], hR⟩
    · obtain ⟨⟨ys, q, v⟩, hy, heq⟩ := Option.map_eq_some_iff.1 hc
      cases heq
      obtain ⟨b, hb, hR⟩ := h a s _ _ ha hn
      obtain ⟨b', hb', hR'⟩ := ih hR hy
      refine ⟨b', ?_, hR'⟩
      rw [Pull.collect, hb]
      dsimp only
      rw [hb', Option.map_some]

end

end Pull
