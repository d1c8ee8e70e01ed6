import Mathlib.Data.Set.Basic

/-!
# Recognition with one token of lookahead

A token source is read from positions: `source p` delivers the next token and the position behind it,
fails, or goes wrong (`none`). A `Rule` says which words a recogniser reads. With a word come the
tokens `stop` that would continue it, so that the recogniser has looked at the next token when `stop`
is inhabited. `opens ts bad` says that after the tokens `ts` it reads one more token and goes wrong on
those in `bad`.

`Meets` connects a recogniser, written in `StateT σ (ExceptT ε Option)`, with its rule: it succeeds
exactly on the words of the rule, and it goes wrong exactly where the rule says.
-/

namespace Recognition

variable {π τ δ σ ε α β : Type}

@[ext] structure Rule (τ α : Type) where
  word : List τ → Set τ → α → Prop
  opens : List τ → Set τ → Prop
  looks : ∀ {ts stop a}, word ts stop a → stop.Nonempty → ∃ bad, opens ts bad

/-- The next token, if there is one, is not in `stop`. -/
def Admits (stop : Set τ) (ts : List τ) : Prop := ∀ t us, ts = t :: us → t ∉ stop

theorem Admits.nil (stop : Set τ) : Admits stop [] := by
  intro t us h
  cases h

theorem admits_cons {stop : Set τ} {t : τ} {ts : List τ} : Admits stop (t :: ts) ↔ t ∉ stop := by
  constructor
  · intro h
    exact h t ts rfl
  · intro h u us he
    cases he
    exact h

namespace Rule

def ret (a : α) : Rule τ α where
  word ts stop b := ts = [] ∧ stop = ∅ ∧ b = a
  opens _ _ := False
  looks h hne := absurd hne (by rw [h.2.1]; exact Set.not_nonempty_empty)

def fail : Rule τ α where
  word _ _ _ := False
  opens _ _ := False
  looks h _ := h.elim

def bind (A : Rule τ α) (B : α → Rule τ β) : Rule τ β where
  word ws stop b := ∃ ts us s s' a, ws = ts ++ us ∧ A.word ts s a ∧ (B a).word us s' b ∧
    Admits s us ∧ stop = {t | t ∈ s' ∨ (us = [] ∧ t ∈ s)}
  opens ws bad := A.opens ws bad ∨ ∃ ts us s a b, ws = ts ++ us ∧ A.word ts s a ∧
    (B a).opens us b ∧ Admits s us ∧ bad = {t | t ∈ b ∧ (us = [] → t ∉ s)}
  looks := by
    rintro ws stop b ⟨ts, us, s, s', a, rfl, ha, hb, hadm, rfl⟩ ⟨t, ht | ⟨hnil, ht⟩⟩
    · obtain ⟨bad, hbad⟩ := (B a).looks hb ⟨t, ht⟩
      exact ⟨_, .inr ⟨ts, us, s, a, bad, rfl, ha, hbad, hadm, rfl⟩⟩
    · obtain ⟨bad, hbad⟩ := A.looks ha ⟨t, ht⟩
      exact ⟨bad, .inl (by rwa [hnil, List.append_nil])⟩

/-- Read a token `t`, then continue with `Y t`; go wrong on the tokens in `bad`. -/
def token (bad : Set τ) (Y : τ → Rule τ α) : Rule τ α where
  word ws stop a := ∃ t ts, ws = t :: ts ∧ t ∉ bad ∧ (Y t).word ts stop a
  opens ws b := (ws = [] ∧ b = bad) ∨ ∃ t ts, ws = t :: ts ∧ t ∉ bad ∧ (Y t).opens ts b
  looks := by
    rintro ws stop a ⟨t, ts, rfl, ht, ha⟩ hne
    obtain ⟨b, hb⟩ := (Y t).looks ha hne
    exact ⟨b, .inr ⟨t, ts, rfl, ht, hb⟩⟩

/-- Read a token in `T` and continue with `Y`, or continue with `Z` where the next token is another
one. -/
def choose (T : Set τ) (Y : τ → Rule τ α) (Z : Rule τ α) : Rule τ α where
  word ws stop a := (∃ t ts, ws = t :: ts ∧ t ∈ T ∧ (Y t).word ts stop a) ∨
    ∃ s, Z.word ws s a ∧ Admits T ws ∧ stop = {t | t ∈ s ∨ (ws = [] ∧ t ∈ T)}
  opens ws bad := (ws = [] ∧ bad = ∅) ∨ (∃ t ts, ws = t :: ts ∧ t ∈ T ∧ (Y t).opens ts bad) ∨
    ∃ b, Z.opens ws b ∧ Admits T ws ∧ bad = {t | t ∈ b ∧ (ws = [] → t ∉ T)}
  looks := by
    rintro ws stop a (⟨t, ts, rfl, ht, ha⟩ | ⟨s, ha, hadm, rfl⟩) hne
    · obtain ⟨b, hb⟩ := (Y t).looks ha hne
      exact ⟨b, .inr (.inl ⟨t, ts, rfl, ht, hb⟩)⟩
    · by_cases hnil : ws = []
      · exact ⟨∅, .inl ⟨hnil, rfl⟩⟩
      · obtain ⟨t, ht | ⟨h, _⟩⟩ := hne
        · obtain ⟨b, hb⟩ := Z.looks ha ⟨t, ht⟩
          exact ⟨_, .inr (.inr ⟨b, hb, hadm, rfl⟩)⟩
        · exact absurd h hnil

/-- Look at the next token `t`, then follow the rule `K t` from the same position. -/
def dispatch (K : τ → Rule τ α) : Rule τ α where
  word ws stop a := ∃ t ts, ws = t :: ts ∧ (K t).word ws stop a
  opens ws bad := (ws = [] ∧ bad = ∅) ∨ ∃ t ts, ws = t :: ts ∧ (K t).opens ws bad
  looks := by
    rintro ws stop a ⟨t, ts, rfl, ha⟩ hne
    obtain ⟨b, hb⟩ := (K t).looks ha hne
    exact ⟨b, .inr ⟨t, ts, rfl, hb⟩⟩

/-- The words of a list of `A` separated by tokens in `sep`. -/
inductive SepWord (sep : Set τ) (A : Rule τ α) : List τ → Set τ → List α → Prop
  | one {ts s a} (h : A.word ts s a) : SepWord sep A ts {t | t ∈ s ∨ t ∈ sep} [a]
  | more {ts s a c us stop as} (h : A.word ts s a) (hc : c ∈ sep) (hs : c ∉ s)
      (hus : SepWord sep A us stop as) : SepWord sep A (ts ++ c :: us) stop (a :: as)

inductive SepOpens (sep : Set τ) (A : Rule τ α) : List τ → Set τ → Prop
  | item {ts bad} (h : A.opens ts bad) : SepOpens sep A ts bad
  | done {ts s a} (h : A.word ts s a) : SepOpens sep A ts ∅
  | more {ts s a c us bad} (h : A.word ts s a) (hc : c ∈ sep) (hs : c ∉ s)
      (hus : SepOpens sep A us bad) : SepOpens sep A (ts ++ c :: us) bad

def sepBy (sep : Set τ) (A : Rule τ α) : Rule τ (List α) where
  word := SepWord sep A
  opens := SepOpens sep A
  looks := by
    intro ts stop as h hne
    induction h with
    | one h => exact ⟨∅, .done h⟩
    | more h hc hs _ ih =>
      obtain ⟨bad, hbad⟩ := ih hne
      exact ⟨bad, .more h hc hs hbad⟩

theorem word_bind_ret {A : Rule τ α} {f : α → β} {ws : List τ} {stop : Set τ} {b : β} :
    (A.bind (fun a => ret (f a))).word ws stop b ↔ ∃ a, A.word ws stop a ∧ b = f a := by
  constructor
  · rintro ⟨ts, us, s, s', a, rfl, ha, ⟨rfl, rfl, rfl⟩, _, rfl⟩
    refine ⟨a, ?_, rfl⟩
    simpa using ha
  · rintro ⟨a, ha, rfl⟩
    exact ⟨ws, [], stop, ∅, a, by simp, ha, ⟨rfl, rfl, rfl⟩, .nil _, by simp⟩

theorem opens_bind_ret {A : Rule τ α} {f : α → β} {ws : List τ} {bad : Set τ} :
    (A.bind (fun a => ret (f a))).opens ws bad ↔ A.opens ws bad := by
  constructor
  · rintro (h | ⟨ts, us, s, a, b, rfl, ha, hb, _⟩)
    · exact h
    · exact hb.elim
  · exact .inl

theorem token_bind {bad : Set τ} {Y : τ → Rule τ α} {B : α → Rule τ β} :
    (token bad Y).bind B = token bad (fun u => (Y u).bind B) := by
  ext ws stop b
  · constructor
    · rintro ⟨_, us, s, s', a, rfl, ⟨u, ts, rfl, hu, ha⟩, hb, hadm, rfl⟩
      exact ⟨u, ts ++ us, rfl, hu, ts, us, s, s', a, rfl, ha, hb, hadm, rfl⟩
    · rintro ⟨u, _, rfl, hu, ts, us, s, s', a, rfl, ha, hb, hadm, rfl⟩
      exact ⟨u :: ts, us, s, s', a, rfl, ⟨u, ts, rfl, hu, ha⟩, hb, hadm, rfl⟩
  · constructor
    · rintro ((⟨rfl, rfl⟩ | ⟨u, ts, rfl, hu, ho⟩) |
        ⟨_, us, s, a, b, rfl, ⟨u, ts, rfl, hu, ha⟩, hb, hadm, rfl⟩)
      · exact .inl ⟨rfl, rfl⟩
      · exact .inr ⟨u, ts, rfl, hu, .inl ho⟩
      · exact .inr ⟨u, ts ++ us, rfl, hu, .inr ⟨ts, us, s, a, b, rfl, ha, hb, hadm, rfl⟩⟩
    · rintro (⟨rfl, rfl⟩ | ⟨u, _, rfl, hu, ho | ⟨ts, us, s, a, b, rfl, ha, hb, hadm, rfl⟩⟩)
      · exact .inl (.inl ⟨rfl, rfl⟩)
      · exact .inl (.inr ⟨u, _, rfl, hu, ho⟩)
      · exact .inr ⟨u :: ts, us, s, a, b, rfl, ⟨u, ts, rfl, hu, ha⟩, hb, hadm, rfl⟩

theorem fail_bind {B : α → Rule τ β} : fail.bind B = fail := by
  ext ws stop b
  · exact ⟨fun ⟨_, _, _, _, _, _, h, _⟩ => h.elim, False.elim⟩
  · exact ⟨fun h => h.elim id (fun ⟨_, _, _, _, _, _, h, _⟩ => h.elim), False.elim⟩

theorem sepBy_eq (sep : Set τ) (A : Rule τ α) : sepBy sep A =
    A.bind (fun a => choose sep (fun _ => (sepBy sep A).bind (fun as => ret (a :: as)))
      (ret [a])) := by
  ext ws stop as
  · constructor
    · intro h
      cases h with
      | one h =>
        refine ⟨ws, [], _, sep, _, by simp, h, .inr ⟨∅, ⟨rfl, rfl, rfl⟩, .nil _, by simp⟩, .nil _, ?_⟩
        ext t
        simp [or_comm]
      | @more ts s a c us stop as h hc hs hus =>
        refine ⟨ts, c :: us, s, stop, a, rfl, h, .inl ⟨c, us, rfl, hc, ?_⟩, admits_cons.2 hs,
          by simp⟩
        exact word_bind_ret.2 ⟨as, hus, rfl⟩
    · rintro ⟨ts, us, s, s', a, rfl, ha, ⟨c, us', rfl, hc, h⟩ | ⟨_, ⟨rfl, rfl, rfl⟩, _, rfl⟩, hadm,
        rfl⟩
      · obtain ⟨as, has, rfl⟩ := word_bind_ret.1 h
        change SepWord sep A _ _ _
        simpa using SepWord.more ha hc (admits_cons.1 hadm) has
      · change SepWord sep A _ _ _
        simpa [or_comm] using (SepWord.one ha : SepWord sep A _ _ _)
  · constructor
    · intro h
      cases h with
      | item h => exact .inl h
      | @done ts s a h =>
        exact .inr ⟨ws, [], s, a, ∅, by simp, h, .inl ⟨rfl, rfl⟩, .nil _, by simp⟩
      | @more ts s a c us bad h hc hs hus =>
        exact .inr ⟨ts, c :: us, s, a, stop, rfl, h,
          .inr (.inl ⟨c, us, rfl, hc, opens_bind_ret.2 hus⟩), admits_cons.2 hs, by simp⟩
    · rintro (h | ⟨ts, us, s, a, b, rfl, ha, ⟨rfl, rfl⟩ | ⟨c, us', rfl, hc, h⟩ | ⟨_, h, _⟩, hadm,
        rfl⟩)
      · exact .item h
      · change SepOpens sep A _ _
        simpa using SepOpens.done ha
      · change SepOpens sep A _ _
        simpa using SepOpens.more ha hc (admits_cons.1 hadm) (opens_bind_ret.1 h)
      · exact h.elim

/-- The rule reads a token first, and goes wrong on none. -/
structure Starts (R : Rule τ α) : Prop where
  word : ∀ s a, ¬ R.word [] s a
  opens : ∀ b, R.opens [] b → b = ∅

theorem starts_fail : (fail : Rule τ α).Starts := ⟨fun _ _ => id, fun _ h => h.elim⟩

theorem starts_token {Y : τ → Rule τ α} : (token ∅ Y).Starts where
  word := by
    rintro s a ⟨t, ts, h, _⟩
    cases h
  opens := by
    rintro b (⟨_, rfl⟩ | ⟨t, ts, h, _⟩)
    · rfl
    · cases h

theorem Starts.bind {A : Rule τ α} {B : α → Rule τ β} (h : A.Starts) : (A.bind B).Starts where
  word := by
    rintro s b ⟨ts, us, s, _, a, hnil, ha, _⟩
    obtain ⟨rfl, rfl⟩ := List.append_eq_nil_iff.1 hnil.symm
    exact h.word s a ha
  opens := by
    rintro b (hb | ⟨ts, us, s, a, _, hnil, ha, _⟩)
    · exact h.opens b hb
    · obtain ⟨rfl, rfl⟩ := List.append_eq_nil_iff.1 hnil.symm
      exact absurd ha (h.word s a)

/-- Behind `ts` the rule goes wrong on the token `t`. -/
def Balks (A : Rule τ α) (ts : List τ) (t : τ) : Prop := ∃ bad, A.opens ts bad ∧ t ∈ bad

def Calm (A : Rule τ α) : Prop := ∀ ts t, ¬ A.Balks ts t

theorem balks_bind {A : Rule τ α} {B : α → Rule τ β} {ws : List τ} {t : τ} :
    (A.bind B).Balks ws t ↔ A.Balks ws t ∨ ∃ ts us s a, ws = ts ++ us ∧ A.word ts s a ∧
      (B a).Balks us t ∧ Admits s us ∧ (us = [] → t ∉ s) := by
  constructor
  · rintro ⟨bad, h | ⟨ts, us, s, a, b, rfl, ha, hb, hadm, rfl⟩, ht⟩
    · exact .inl ⟨bad, h, ht⟩
    · exact .inr ⟨ts, us, s, a, rfl, ha, ⟨b, hb, ht.1⟩, hadm, ht.2⟩
  · rintro (⟨bad, h, ht⟩ | ⟨ts, us, s, a, rfl, ha, ⟨b, hb, ht⟩, hadm, hs⟩)
    · exact ⟨bad, .inl h, ht⟩
    · exact ⟨_, .inr ⟨ts, us, s, a, b, rfl, ha, hb, hadm, rfl⟩, ht, hs⟩

theorem balks_token {bad : Set τ} {Y : τ → Rule τ α} {ws : List τ} {t : τ} :
    (token bad Y).Balks ws t ↔ (ws = [] ∧ t ∈ bad) ∨
      ∃ u us, ws = u :: us ∧ u ∉ bad ∧ (Y u).Balks us t := by
  constructor
  · rintro ⟨b, ⟨rfl, rfl⟩ | ⟨u, us, rfl, hu, h⟩, ht⟩
    · exact .inl ⟨rfl, ht⟩
    · exact .inr ⟨u, us, rfl, hu, b, h, ht⟩
  · rintro (⟨rfl, ht⟩ | ⟨u, us, rfl, hu, b, h, ht⟩)
    · exact ⟨bad, .inl ⟨rfl, rfl⟩, ht⟩
    · exact ⟨b, .inr ⟨u, us, rfl, hu, h⟩, ht⟩

theorem balks_dispatch {K : τ → Rule τ α} {ws : List τ} {t : τ} :
    (dispatch K).Balks ws t ↔ ∃ u us, ws = u :: us ∧ (K u).Balks ws t := by
  constructor
  · rintro ⟨b, ⟨rfl, rfl⟩ | ⟨u, us, rfl, h⟩, ht⟩
    · exact absurd ht (Set.notMem_empty t)
    · exact ⟨u, us, rfl, b, h, ht⟩
  · rintro ⟨u, us, rfl, b, h, ht⟩
    exact ⟨b, .inr ⟨u, us, rfl, h⟩, ht⟩

/-- Items of a list, each with the separator behind it. -/
inductive Items (sep : Set τ) (A : Rule τ α) : List τ → Prop
  | nil : Items sep A []
  | cons {ts s a c us} (h : A.word ts s a) (hc : c ∈ sep) (hs : c ∉ s) (hus : Items sep A us) :
    Items sep A (ts ++ c :: us)

theorem balks_sepBy {sep : Set τ} {A : Rule τ α} {ws : List τ} {t : τ} :
    (sepBy sep A).Balks ws t ↔ ∃ ts us, ws = ts ++ us ∧ Items sep A ts ∧ A.Balks us t := by
  constructor
  · rintro ⟨bad, h, ht⟩
    change SepOpens sep A ws bad at h
    induction h with
    | item h => exact ⟨[], _, rfl, .nil, _, h, ht⟩
    | done _ => exact absurd ht (Set.notMem_empty t)
    | @more ts s a c us bad h hc hs _ ih =>
      obtain ⟨ts', us', rfl, hts, hb⟩ := ih ht
      exact ⟨ts ++ c :: ts', us', by simp, .cons h hc hs hts, hb⟩
  · rintro ⟨ts, us, rfl, hts, bad, hb, ht⟩
    refine ⟨bad, ?_, ht⟩
    change SepOpens sep A _ bad
    induction hts with
    | nil => exact .item hb
    | cons h hc hs _ ih =>
      rw [List.append_assoc]
      exact .more h hc hs ih

theorem calm_ret (a : α) : (ret a : Rule τ α).Calm := by
  rintro ts t ⟨bad, h, _⟩
  exact h

theorem calm_fail : (fail : Rule τ α).Calm := by
  rintro ts t ⟨bad, h, _⟩
  exact h

theorem Calm.bind {A : Rule τ α} {B : α → Rule τ β} (hA : A.Calm) (hB : ∀ a, (B a).Calm) :
    (A.bind B).Calm := by
  intro ws t h
  rcases balks_bind.1 h with h | ⟨_, us, _, a, _, _, h, _⟩
  · exact hA ws t h
  · exact hB a us t h

theorem calm_token {Y : τ → Rule τ α} (hY : ∀ u, (Y u).Calm) : (token ∅ Y).Calm := by
  intro ws t h
  rcases balks_token.1 h with ⟨_, ht⟩ | ⟨u, us, _, _, h⟩
  · exact ht
  · exact hY u us t h

theorem calm_dispatch {K : τ → Rule τ α} (hK : ∀ u, (K u).Calm) : (dispatch K).Calm := by
  intro ws t h
  obtain ⟨u, us, _, h⟩ := balks_dispatch.1 h
  exact hK u ws t h

theorem calm_choose {T : Set τ} {Y : τ → Rule τ α} {Z : Rule τ α} (hY : ∀ u, (Y u).Calm)
    (hZ : Z.Calm) : (choose T Y Z).Calm := by
  rintro ws t ⟨b, ⟨_, rfl⟩ | ⟨u, us, _, _, h⟩ | ⟨b, h, _, rfl⟩, ht⟩
  · exact ht
  · exact hY u us t ⟨b, h, ht⟩
  · exact hZ ws t ⟨b, h, ht.1⟩

theorem Calm.sepBy {sep : Set τ} {A : Rule τ α} (hA : A.Calm) : (sepBy sep A).Calm := by
  intro ws t h
  obtain ⟨_, us, _, _, h⟩ := balks_sepBy.1 h
  exact hA us t h

end Rule

section

variable (source : π → Option (Except δ (τ × π)))

/-- Reading the tokens `ts` leads from `p` to `q`. -/
def Reads : π → List τ → π → Prop
  | p, [], q => p = q
  | p, t :: ts, q => ∃ r, source p = some (.ok (t, r)) ∧ Reads r ts q

/-- The recogniser has looked at the next token if it had to, and that token is not in `stop`. -/
def Ends (stop : Set τ) (q : π) : Prop :=
  (stop.Nonempty → source q ≠ none) ∧ ∀ t r, source q = some (.ok (t, r)) → t ∉ stop

def GoesWrong (bad : Set τ) (q : π) : Prop :=
  source q = none ∨ ∃ t r, source q = some (.ok (t, r)) ∧ t ∈ bad

end

variable {source : π → Option (Except δ (τ × π))} {pos : σ → π} {p q r : π} {ts us : List τ}
  {s stop bad : Set τ}

theorem reads_append : Reads source p (ts ++ us) q ↔
    ∃ r, Reads source p ts r ∧ Reads source r us q := by
  induction ts generalizing p with
  | nil => simp [Reads]
  | cons t ts ih =>
    simp only [List.cons_append, Reads, ih]
    constructor
    · rintro ⟨r, ht, r', hts, hus⟩
      exact ⟨r', ⟨r, ht, hts⟩, hus⟩
    · rintro ⟨r', ⟨r, ht, hts⟩, hus⟩
      exact ⟨r, ht, r', hts, hus⟩

/-- Tokens that are read from the same position to the same position are the same, when reading a
token moves the position down in some measure. -/
theorem Reads.unique {μ : π → ℕ} (hμ : ∀ p t r, source p = some (.ok (t, r)) → μ r < μ p)
    (h : Reads source p ts q) (h' : Reads source p us q) : ts = us := by
  have hle : ∀ ts p, Reads source p ts q → μ q ≤ μ p ∧ (ts ≠ [] → μ q < μ p) := by
    intro ts
    induction ts with
    | nil => exact fun p hp => ⟨hp ▸ le_rfl, fun hne => absurd rfl hne⟩
    | cons t ts ih =>
      rintro p ⟨r, ht, hr⟩
      have hlt := (ih r hr).1.trans_lt (hμ p t r ht)
      exact ⟨hlt.le, fun _ => hlt⟩
  induction ts generalizing p us with
  | nil =>
    cases us with
    | nil => rfl
    | cons u us => exact absurd ((hle _ p h').2 (by simp)) (by rw [h]; exact lt_irrefl _)
  | cons t ts ih =>
    cases us with
    | nil => exact absurd ((hle _ p h).2 (by simp)) (by rw [h']; exact lt_irrefl _)
    | cons u us =>
      obtain ⟨r, ht, hr⟩ := h
      obtain ⟨r', hu, hr'⟩ := h'
      rw [ht] at hu
      obtain ⟨rfl, rfl⟩ : t = u ∧ r = r' := by simpa using hu
      rw [ih hr hr']

theorem Reads.admits (h : Reads source q us r) (he : Ends source stop q) : Admits stop us := by
  rintro t us' rfl
  obtain ⟨r', ht, _⟩ := h
  exact he.2 t r' ht

theorem Reads.ends {t : τ} (h : Reads source q (t :: us) r) (hadm : Admits stop (t :: us)) :
    Ends source stop q := by
  obtain ⟨r', ht, _⟩ := h
  constructor
  · intro _ hnone
    rw [ht] at hnone
    cases hnone
  · intro u r'' hu
    rw [ht] at hu
    obtain ⟨rfl, rfl⟩ : t = u ∧ r' = r'' := by simpa using hu
    exact admits_cons.1 hadm

/-- A recogniser reads the words of the rule, from positions in `D`. -/
structure Meets (source : π → Option (Except δ (τ × π))) (pos : σ → π) (D : π → Prop)
    (x : StateT σ (ExceptT ε Option) α) (R : Rule τ α) : Prop where
  ok : ∀ s a q, D (pos s) → ((∃ s', x s = some (.ok (a, s')) ∧ pos s' = q) ↔
    ∃ ts stop, R.word ts stop a ∧ Reads source (pos s) ts q ∧ Ends source stop q)
  wrong : ∀ s, D (pos s) → (x s = none ↔
    ∃ ts bad q, R.opens ts bad ∧ Reads source (pos s) ts q ∧ GoesWrong source bad q)

theorem bind_apply (x : StateT σ (ExceptT ε Option) α) (f : α → StateT σ (ExceptT ε Option) β)
    (s : σ) : (x >>= f) s = match x s with
      | none => none
      | some (.error e) => some (.error e)
      | some (.ok (a, s')) => f a s' := by
  change (ExceptT.bind (x s) fun r => f r.1 r.2) = _
  rcases x s with _ | _ | ⟨a, s'⟩ <;> rfl

section

variable {D W : π → Prop} {x : StateT σ (ExceptT ε Option) α} {A Z : Rule τ α}

theorem Ends.empty (q : π) : Ends source ∅ q :=
  ⟨fun hne => absurd hne Set.not_nonempty_empty, fun t _ _ => Set.notMem_empty t⟩

theorem Meets.mono (h : Meets source pos D x A) (hD : ∀ p, W p → D p) :
    Meets source pos W x A where
  ok s a q hs := h.ok s a q (hD _ hs)
  wrong s hs := h.wrong s (hD _ hs)

theorem Meets.of_not (h : ∀ p, ¬ D p) : Meets source pos D x A where
  ok _ _ _ hs := absurd hs (h _)
  wrong _ hs := absurd hs (h _)

theorem Meets.ret (a : α) : Meets source pos D (pure a : StateT σ (ExceptT ε Option) α)
    (Rule.ret a) where
  ok s b q _ := by
    constructor
    · rintro ⟨s', h, rfl⟩
      obtain ⟨rfl, rfl⟩ : a = b ∧ s = s' := by simpa using Option.some.inj h
      exact ⟨[], ∅, ⟨rfl, rfl, rfl⟩, rfl, .empty _⟩
    · rintro ⟨ts, stop, ⟨rfl, rfl, rfl⟩, rfl, _⟩
      exact ⟨s, rfl, rfl⟩
  wrong s _ := by
    constructor
    · intro h
      cases h
    · rintro ⟨ts, bad, q, h, _⟩
      exact h.elim

theorem Meets.fail (h : ∀ s, ∃ e, x s = some (.error e)) :
    Meets source pos D x (Rule.fail : Rule τ α) where
  ok s b q _ := by
    obtain ⟨e, he⟩ := h s
    constructor
    · rintro ⟨s', hs, _⟩
      rw [he] at hs
      cases hs
    · rintro ⟨ts, stop, hw, _⟩
      exact hw.elim
  wrong s _ := by
    obtain ⟨e, he⟩ := h s
    constructor
    · intro hs
      rw [he] at hs
      cases hs
    · rintro ⟨ts, bad, q, hw, _⟩
      exact hw.elim

theorem Reads.persists (hD : ∀ p t r, D p → source p = some (.ok (t, r)) → D r)
    (h : Reads source p ts q) (hp : D p) : D q := by
  induction ts generalizing p with
  | nil => rwa [← show p = q from h]
  | cons t ts ih =>
    obtain ⟨r, ht, hr⟩ := h
    exact ih hr (hD p t r hp ht)

theorem ends_union {P : Prop} {s s' : Set τ} :
    Ends source {t | t ∈ s' ∨ (P ∧ t ∈ s)} q ↔ Ends source s' q ∧ (P → Ends source s q) := by
  constructor
  · rintro ⟨hlook, hout⟩
    constructor
    · exact ⟨fun ⟨t, ht⟩ => hlook ⟨t, .inl ht⟩, fun t r ht h => hout t r ht (.inl h)⟩
    · intro hP
      exact ⟨fun ⟨t, ht⟩ => hlook ⟨t, .inr ⟨hP, ht⟩⟩, fun t r ht h => hout t r ht (.inr ⟨hP, h⟩)⟩
  · rintro ⟨h', h⟩
    constructor
    · rintro ⟨t, ht | ⟨hP, ht⟩⟩
      · exact h'.1 ⟨t, ht⟩
      · exact (h hP).1 ⟨t, ht⟩
    · rintro t r ht (hs | ⟨hP, hs⟩)
      · exact h'.2 t r ht hs
      · exact (h hP).2 t r ht hs

theorem Reads.ends_of_admits (h : Reads source r us q) (hadm : Admits s us)
    (hnil : us = [] → Ends source s q) : Ends source s r := by
  cases us with
  | nil =>
    obtain rfl : r = q := h
    exact hnil rfl
  | cons u us => exact h.ends hadm

theorem Meets.bind {f : α → StateT σ (ExceptT ε Option) β} {B : α → Rule τ β}
    (hD : ∀ p t r, D p → source p = some (.ok (t, r)) → D r) (hx : Meets source pos D x A)
    (hf : ∀ a, Meets source pos D (f a) (B a)) : Meets source pos D (x >>= f) (A.bind B) where
  ok s b q hs := by
    rw [bind_apply]
    constructor
    · rintro ⟨s', h, rfl⟩
      rcases hxs : x s with _ | _ | ⟨a, s₁⟩
      · rw [hxs] at h
        cases h
      · rw [hxs] at h
        cases h
      · rw [hxs] at h
        obtain ⟨ts, stop, ha, hts, he⟩ := (hx.ok s a (pos s₁) hs).1 ⟨s₁, hxs, rfl⟩
        obtain ⟨us, stop', hb, hus, he'⟩ :=
          ((hf a).ok s₁ b (pos s') (hts.persists hD hs)).1 ⟨s', h, rfl⟩
        refine ⟨ts ++ us, _, ⟨ts, us, stop, stop', a, rfl, ha, hb, hus.admits he, rfl⟩,
          reads_append.2 ⟨_, hts, hus⟩, ends_union.2 ⟨he', ?_⟩⟩
        rintro rfl
        rwa [← show pos s₁ = pos s' from hus]
    · rintro ⟨ws, stop, ⟨ts, us, t, t', a, rfl, ha, hb, hadm, rfl⟩, hws, he⟩
      obtain ⟨r, hts, hus⟩ := reads_append.1 hws
      obtain ⟨he', hnil⟩ := ends_union.1 he
      obtain ⟨s₁, hxs, rfl⟩ := (hx.ok s a r hs).2 ⟨ts, t, ha, hts, hus.ends_of_admits hadm hnil⟩
      rw [hxs]
      exact ((hf a).ok s₁ b q (hts.persists hD hs)).2 ⟨us, t', hb, hus, he'⟩
  wrong s hs := by
    rw [bind_apply]
    constructor
    · intro h
      rcases hxs : x s with _ | _ | ⟨a, s₁⟩
      · obtain ⟨ts, bad, q, ho, hts, hw⟩ := (hx.wrong s hs).1 hxs
        exact ⟨ts, bad, q, .inl ho, hts, hw⟩
      · rw [hxs] at h
        cases h
      · rw [hxs] at h
        obtain ⟨ts, stop, ha, hts, he⟩ := (hx.ok s a (pos s₁) hs).1 ⟨s₁, hxs, rfl⟩
        obtain ⟨us, bad, q, ho, hus, hw⟩ := ((hf a).wrong s₁ (hts.persists hD hs)).1 h
        refine ⟨ts ++ us, _, q, .inr ⟨ts, us, stop, a, bad, rfl, ha, ho, hus.admits he, rfl⟩,
          reads_append.2 ⟨_, hts, hus⟩, ?_⟩
        rcases hw with hw | ⟨t, r, ht, hbad⟩
        · exact .inl hw
        · refine .inr ⟨t, r, ht, hbad, ?_⟩
          rintro rfl
          obtain rfl : pos s₁ = q := hus
          exact he.2 t r ht
    · rintro ⟨ws, bad, q, ho | ⟨ts, us, t, a, b, rfl, ha, ho, hadm, rfl⟩, hws, hw⟩
      · rw [(hx.wrong s hs).2 ⟨ws, bad, q, ho, hws, hw⟩]
      · obtain ⟨r, hts, hus⟩ := reads_append.1 hws
        by_cases hlook : t.Nonempty ∧ source r = none
        · obtain ⟨bad, hopens⟩ := A.looks ha hlook.1
          rw [(hx.wrong s hs).2 ⟨ts, bad, r, hopens, hts, .inl hlook.2⟩]
        · have he : Ends source t r := by
            refine hus.ends_of_admits hadm ?_
            rintro rfl
            obtain rfl : r = q := hus
            refine ⟨fun hne hnone => hlook ⟨hne, hnone⟩, fun u r' hu => ?_⟩
            rcases hw with hw | ⟨u', r'', hu', _, hnot⟩
            · rw [hw] at hu
              cases hu
            · rw [hu] at hu'
              obtain ⟨rfl, rfl⟩ : u = u' ∧ r' = r'' := by simpa using hu'
              exact hnot rfl
          obtain ⟨s₁, hxs, rfl⟩ := (hx.ok s a r hs).2 ⟨ts, t, ha, hts, he⟩
          rw [hxs]
          refine ((hf a).wrong s₁ (hts.persists hD hs)).2 ⟨us, b, q, ho, hus, ?_⟩
          rcases hw with hw | ⟨u, r', hu, hb, _⟩
          · exact .inl hw
          · exact .inr ⟨u, r', hu, hb⟩

theorem reads_cons_iff {t u : τ} (h : source p = some (.ok (t, r))) :
    Reads source p (u :: us) q ↔ u = t ∧ Reads source r us q := by
  constructor
  · rintro ⟨r', hu, hus⟩
    rw [h] at hu
    obtain ⟨rfl, rfl⟩ : t = u ∧ r = r' := by simpa using hu
    exact ⟨rfl, hus⟩
  · rintro ⟨rfl, hus⟩
    exact ⟨r, h, hus⟩

theorem not_reads_cons {u : τ} (h : ∀ t r, source p ≠ some (.ok (t, r))) :
    ¬ Reads source p (u :: us) q := by
  rintro ⟨r, hu, _⟩
  exact h u r hu

theorem goesWrong_iff {t : τ} (h : source p = some (.ok (t, r))) :
    GoesWrong source bad p ↔ t ∈ bad := by
  constructor
  · rintro (hnone | ⟨u, r', hu, hb⟩)
    · rw [h] at hnone
      cases hnone
    · rw [h] at hu
      obtain ⟨rfl, _⟩ : t = u ∧ r = r' := by simpa using hu
      exact hb
  · exact fun ht => .inr ⟨t, r, h, ht⟩

theorem not_goesWrong {e : δ} (h : source p = some (.error e)) : ¬ GoesWrong source bad p := by
  rintro (hw | ⟨t, r, hw, _⟩) <;> simp [h] at hw

theorem ends_iff {t : τ} (h : source p = some (.ok (t, r))) : Ends source stop p ↔ t ∉ stop := by
  constructor
  · exact fun he => he.2 t r h
  · intro ht
    refine ⟨fun _ => by simp [h], fun u r' hu => ?_⟩
    rw [h] at hu
    obtain ⟨rfl, _⟩ : t = u ∧ r = r' := by simpa using hu
    exact ht

theorem ends_of_error {e : δ} (h : source p = some (.error e)) : Ends source stop p :=
  ⟨fun _ => by simp [h], fun t r ht => by simp [h] at ht⟩

theorem Meets.token {bad : Set τ} {y : τ → StateT σ (ExceptT ε Option) α} {Y : τ → Rule τ α}
    (hnone : ∀ s, source (pos s) = none → x s = none)
    (herror : ∀ s e, D (pos s) → source (pos s) = some (.error e) → ∃ e', x s = some (.error e'))
    (hbad : ∀ s t r, D (pos s) → source (pos s) = some (.ok (t, r)) → t ∈ bad → x s = none)
    (hok : ∀ s t r, D (pos s) → source (pos s) = some (.ok (t, r)) → t ∉ bad →
      ∃ s', pos s' = r ∧ x s = y t s')
    (hD : ∀ p t r, D p → source p = some (.ok (t, r)) → W r)
    (hy : ∀ t, t ∉ bad → Meets source pos W (y t) (Y t)) :
    Meets source pos D x (Rule.token bad Y) where
  ok s a q hs := by
    rcases h : source (pos s) with _ | e | ⟨t, r⟩
    · rw [hnone s h]
      constructor
      · rintro ⟨_, hx, _⟩
        cases hx
      · rintro ⟨_, stop, ⟨t, ts, rfl, _⟩, hts, _⟩
        exact absurd hts (not_reads_cons (by simp [h]))
    · obtain ⟨e', he'⟩ := herror s e hs h
      rw [he']
      constructor
      · rintro ⟨_, hx, _⟩
        cases hx
      · rintro ⟨_, stop, ⟨t, ts, rfl, _⟩, hts, _⟩
        exact absurd hts (not_reads_cons (by simp [h]))
    · by_cases ht : t ∈ bad
      · rw [hbad s t r hs h ht]
        constructor
        · rintro ⟨_, hx, _⟩
          cases hx
        · rintro ⟨_, stop, ⟨u, ts, rfl, hu, _⟩, hts, _⟩
          exact absurd ht (((reads_cons_iff h).1 hts).1 ▸ hu)
      · obtain ⟨s', rfl, hxs⟩ := hok s t r hs h ht
        rw [hxs, (hy t ht).ok s' a q (hD _ t _ hs h)]
        constructor
        · rintro ⟨ts, stop, hw, hts, he⟩
          exact ⟨t :: ts, stop, ⟨t, ts, rfl, ht, hw⟩, (reads_cons_iff h).2 ⟨rfl, hts⟩, he⟩
        · rintro ⟨_, stop, ⟨u, ts, rfl, _, hw⟩, hts, he⟩
          obtain ⟨rfl, hts⟩ := (reads_cons_iff h).1 hts
          exact ⟨ts, stop, hw, hts, he⟩
  wrong s hs := by
    rcases h : source (pos s) with _ | e | ⟨t, r⟩
    · exact ⟨fun _ => ⟨[], bad, pos s, .inl ⟨rfl, rfl⟩, rfl, .inl h⟩, fun _ => hnone s h⟩
    · obtain ⟨e', he'⟩ := herror s e hs h
      rw [he']
      constructor
      · intro hx
        cases hx
      · rintro ⟨_, _, q, ⟨rfl, rfl⟩ | ⟨t, ts, rfl, _⟩, hts, hw⟩
        · obtain rfl : pos s = q := hts
          exact absurd hw (not_goesWrong h)
        · exact absurd hts (not_reads_cons (by simp [h]))
    · by_cases ht : t ∈ bad
      · exact ⟨fun _ => ⟨[], bad, pos s, .inl ⟨rfl, rfl⟩, rfl, .inr ⟨t, r, h, ht⟩⟩,
          fun _ => hbad s t r hs h ht⟩
      · obtain ⟨s', rfl, hxs⟩ := hok s t r hs h ht
        rw [hxs, (hy t ht).wrong s' (hD _ t _ hs h)]
        constructor
        · rintro ⟨ts, b, q, ho, hts, hw⟩
          exact ⟨t :: ts, b, q, .inr ⟨t, ts, rfl, ht, ho⟩, (reads_cons_iff h).2 ⟨rfl, hts⟩, hw⟩
        · rintro ⟨_, b, q, ⟨rfl, rfl⟩ | ⟨u, ts, rfl, _, ho⟩, hts, hw⟩
          · obtain rfl : pos s = q := hts
            exact absurd ((goesWrong_iff h).1 hw) ht
          · obtain ⟨rfl, hts⟩ := (reads_cons_iff h).1 hts
            exact ⟨ts, b, q, ho, hts, hw⟩

theorem Meets.choose {T : Set τ} {y : τ → StateT σ (ExceptT ε Option) α} {Y : τ → Rule τ α}
    {z : StateT σ (ExceptT ε Option) α} (hT : T.Nonempty)
    (hnone : ∀ s, source (pos s) = none → x s = none)
    (herror : ∀ s e, source (pos s) = some (.error e) → ∃ s', pos s' = pos s ∧ x s = z s')
    (hin : ∀ s t r, source (pos s) = some (.ok (t, r)) → t ∈ T → ∃ s', pos s' = r ∧ x s = y t s')
    (hout : ∀ s t r, source (pos s) = some (.ok (t, r)) → t ∉ T →
      ∃ s', pos s' = pos s ∧ x s = z s')
    (hD : ∀ p t r, D p → source p = some (.ok (t, r)) → W r)
    (hy : ∀ t ∈ T, Meets source pos W (y t) (Y t)) (hz : Meets source pos D z Z) :
    Meets source pos D x (Rule.choose T Y Z) where
  ok s a q hs := by
    rcases h : source (pos s) with _ | e | ⟨t, r⟩
    · rw [hnone s h]
      constructor
      · rintro ⟨_, hx, _⟩
        cases hx
      · rintro ⟨ws, stop, ⟨t, ts, rfl, _⟩ | ⟨s', _, _, rfl⟩, hts, he⟩
        · exact absurd hts (not_reads_cons (by simp [h]))
        · cases ws with
          | nil =>
            obtain rfl : pos s = q := hts
            exact absurd h (((ends_union.1 he).2 rfl).1 hT)
          | cons => exact absurd hts (not_reads_cons (by simp [h]))
    · obtain ⟨s', hpos, hxs⟩ := herror s e h
      rw [hxs, hz.ok s' a q (hpos ▸ hs), hpos]
      constructor
      · rintro ⟨ts, stop, hw, hts, he⟩
        refine ⟨ts, _, .inr ⟨stop, hw, ?_, rfl⟩, hts, ends_union.2 ⟨he, ?_⟩⟩
        · exact hts.admits (ends_of_error h)
        · rintro rfl
          obtain rfl : pos s = q := hts
          exact ends_of_error h
      · rintro ⟨ws, stop, ⟨t, ts, rfl, _⟩ | ⟨s'', hw, _, rfl⟩, hts, he⟩
        · exact absurd hts (not_reads_cons (by simp [h]))
        · exact ⟨ws, s'', hw, hts, (ends_union.1 he).1⟩
    · by_cases ht : t ∈ T
      · obtain ⟨s', rfl, hxs⟩ := hin s t r h ht
        rw [hxs, (hy t ht).ok s' a q (hD _ t _ hs h)]
        constructor
        · rintro ⟨ts, stop, hw, hts, he⟩
          exact ⟨t :: ts, stop, .inl ⟨t, ts, rfl, ht, hw⟩, (reads_cons_iff h).2 ⟨rfl, hts⟩, he⟩
        · rintro ⟨ws, stop, ⟨u, ts, rfl, _, hw⟩ | ⟨s'', hw, hadm, rfl⟩, hts, he⟩
          · obtain ⟨rfl, hts⟩ := (reads_cons_iff h).1 hts
            exact ⟨ts, stop, hw, hts, he⟩
          · have hend : Ends source T (pos s) :=
              hts.ends_of_admits hadm (ends_union.1 he).2
            exact absurd ht ((ends_iff h).1 hend)
      · obtain ⟨s', hpos, hxs⟩ := hout s t r h ht
        rw [hxs, hz.ok s' a q (hpos ▸ hs), hpos]
        constructor
        · rintro ⟨ts, stop, hw, hts, he⟩
          refine ⟨ts, _, .inr ⟨stop, hw, ?_, rfl⟩, hts, ends_union.2 ⟨he, ?_⟩⟩
          · exact hts.admits ((ends_iff h).2 ht)
          · rintro rfl
            obtain rfl : pos s = q := hts
            exact (ends_iff h).2 ht
        · rintro ⟨ws, stop, ⟨u, ts, rfl, hu, _⟩ | ⟨s'', hw, _, rfl⟩, hts, he⟩
          · exact absurd (((reads_cons_iff h).1 hts).1 ▸ hu) ht
          · exact ⟨ws, s'', hw, hts, (ends_union.1 he).1⟩
  wrong s hs := by
    rcases h : source (pos s) with _ | e | ⟨t, r⟩
    · exact ⟨fun _ => ⟨[], ∅, pos s, .inl ⟨rfl, rfl⟩, rfl, .inl h⟩, fun _ => hnone s h⟩
    · obtain ⟨s', hpos, hxs⟩ := herror s e h
      rw [hxs, hz.wrong s' (hpos ▸ hs), hpos]
      have hno : ∀ ts bad q, Reads source (pos s) ts q → ¬ GoesWrong source bad q := by
        intro ts bad q hts
        cases ts with
        | nil =>
          obtain rfl : pos s = q := hts
          exact not_goesWrong h
        | cons => exact absurd hts (not_reads_cons (by simp [h]))
      constructor
      · rintro ⟨ts, b, q, _, hts, hw⟩
        exact absurd hw (hno ts b q hts)
      · rintro ⟨ts, b, q, _, hts, hw⟩
        exact absurd hw (hno ts b q hts)
    · by_cases ht : t ∈ T
      · obtain ⟨s', rfl, hxs⟩ := hin s t r h ht
        rw [hxs, (hy t ht).wrong s' (hD _ t _ hs h)]
        constructor
        · rintro ⟨ts, b, q, ho, hts, hw⟩
          exact ⟨t :: ts, b, q, .inr (.inl ⟨t, ts, rfl, ht, ho⟩), (reads_cons_iff h).2 ⟨rfl, hts⟩, hw⟩
        · rintro ⟨ws, b, q, ⟨rfl, rfl⟩ | ⟨u, ts, rfl, _, ho⟩ | ⟨b', _, hadm, rfl⟩, hts, hw⟩
          · obtain rfl : pos s = q := hts
            exact absurd ((goesWrong_iff h).1 hw) (Set.notMem_empty t)
          · obtain ⟨rfl, hts⟩ := (reads_cons_iff h).1 hts
            exact ⟨ts, b, q, ho, hts, hw⟩
          · cases ws with
            | nil =>
              obtain rfl : pos s = q := hts
              exact absurd ht (((goesWrong_iff h).1 hw).2 rfl)
            | cons u ts =>
              obtain ⟨rfl, _⟩ := (reads_cons_iff h).1 hts
              exact absurd ht (admits_cons.1 hadm)
      · obtain ⟨s', hpos, hxs⟩ := hout s t r h ht
        rw [hxs, hz.wrong s' (hpos ▸ hs), hpos]
        constructor
        · rintro ⟨ts, b, q, ho, hts, hw⟩
          refine ⟨ts, _, q, .inr (.inr ⟨b, ho, hts.admits ((ends_iff h).2 ht), rfl⟩), hts, ?_⟩
          rcases hw with hw | ⟨u, r', hu, hb⟩
          · exact .inl hw
          · refine .inr ⟨u, r', hu, hb, ?_⟩
            rintro rfl
            obtain rfl : pos s = q := hts
            rw [h] at hu
            obtain ⟨rfl, _⟩ : t = u ∧ r = r' := by simpa using hu
            exact ht
        · rintro ⟨ws, b, q, ⟨rfl, rfl⟩ | ⟨u, ts, rfl, hu, _⟩ | ⟨b', ho, hadm, rfl⟩, hts, hw⟩
          · obtain rfl : pos s = q := hts
            exact absurd ((goesWrong_iff h).1 hw) (Set.notMem_empty t)
          · exact absurd (((reads_cons_iff h).1 hts).1 ▸ hu) ht
          · refine ⟨ws, b', q, ho, hts, ?_⟩
            rcases hw with hw | ⟨u, r', hu, hb, _⟩
            · exact .inl hw
            · exact .inr ⟨u, r', hu, hb⟩

theorem Meets.dispatch {k : τ → StateT σ (ExceptT ε Option) α} {K : τ → Rule τ α}
    (hnone : ∀ s, source (pos s) = none → x s = none)
    (herror : ∀ s e, source (pos s) = some (.error e) → ∃ e', x s = some (.error e'))
    (hok : ∀ s t r, source (pos s) = some (.ok (t, r)) → ∃ s', pos s' = pos s ∧ x s = k t s')
    (hk : ∀ t, Meets source pos (fun p => D p ∧ ∃ r, source p = some (.ok (t, r))) (k t) (K t))
    (hK : ∀ t, (K t).Starts) :
    Meets source pos D x (Rule.dispatch K) where
  ok s a q hs := by
    rcases h : source (pos s) with _ | e | ⟨t, r⟩
    · rw [hnone s h]
      constructor
      · rintro ⟨_, hx, _⟩
        cases hx
      · rintro ⟨_, stop, ⟨t, ts, rfl, _⟩, hts, _⟩
        exact absurd hts (not_reads_cons (by simp [h]))
    · obtain ⟨e', he'⟩ := herror s e h
      rw [he']
      constructor
      · rintro ⟨_, hx, _⟩
        cases hx
      · rintro ⟨_, stop, ⟨t, ts, rfl, _⟩, hts, _⟩
        exact absurd hts (not_reads_cons (by simp [h]))
    · obtain ⟨s', hpos, hxs⟩ := hok s t r h
      rw [hxs, (hk t).ok s' a q (hpos ▸ ⟨hs, r, h⟩), hpos]
      constructor
      · rintro ⟨ts, stop, hw, hts, he⟩
        cases ts with
        | nil => exact absurd hw ((hK t).word stop a)
        | cons u ts =>
          obtain ⟨rfl, _⟩ := (reads_cons_iff h).1 hts
          exact ⟨u :: ts, stop, ⟨u, ts, rfl, hw⟩, hts, he⟩
      · rintro ⟨_, stop, ⟨u, ts, rfl, hw⟩, hts, he⟩
        obtain ⟨rfl, _⟩ := (reads_cons_iff h).1 hts
        exact ⟨u :: ts, stop, hw, hts, he⟩
  wrong s hs := by
    rcases h : source (pos s) with _ | e | ⟨t, r⟩
    · exact ⟨fun _ => ⟨[], ∅, pos s, .inl ⟨rfl, rfl⟩, rfl, .inl h⟩, fun _ => hnone s h⟩
    · obtain ⟨e', he'⟩ := herror s e h
      rw [he']
      constructor
      · intro hx
        cases hx
      · rintro ⟨_, b, q, ⟨rfl, rfl⟩ | ⟨t, ts, rfl, _⟩, hts, hw⟩
        · obtain rfl : pos s = q := hts
          exact absurd hw (not_goesWrong h)
        · exact absurd hts (not_reads_cons (by simp [h]))
    · obtain ⟨s', hpos, hxs⟩ := hok s t r h
      rw [hxs, (hk t).wrong s' (hpos ▸ ⟨hs, r, h⟩), hpos]
      constructor
      · rintro ⟨ts, b, q, ho, hts, hw⟩
        cases ts with
        | nil =>
          obtain rfl : pos s = q := hts
          rw [(hK t).opens b ho, goesWrong_iff h] at hw
          exact absurd hw (Set.notMem_empty t)
        | cons u ts =>
          obtain ⟨rfl, _⟩ := (reads_cons_iff h).1 hts
          exact ⟨u :: ts, b, q, .inr ⟨u, ts, rfl, ho⟩, hts, hw⟩
      · rintro ⟨_, b, q, ⟨rfl, rfl⟩ | ⟨u, ts, rfl, ho⟩, hts, hw⟩
        · obtain rfl : pos s = q := hts
          exact absurd ((goesWrong_iff h).1 hw) (Set.notMem_empty t)
        · obtain ⟨rfl, _⟩ := (reads_cons_iff h).1 hts
          exact ⟨u :: ts, b, q, ho, hts, hw⟩

end

end Recognition
