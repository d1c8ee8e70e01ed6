import Tadis.ShellSessions

/-!
# Replaying the lines that have succeeded

Only a line that prints `Success` alone changes the relations: what the tables hold is what these lines
make of an empty directory.
-/

namespace Tadis

/-- `Success` without rows. -/
def Output.isSuccess (out : Output) : Bool := out = .success

theorem Relations.execute_idle (floatSub : UInt32 → UInt32 → ℤ) (r : Relations) (stmt : QueryStmt) :
    (r.execute floatSub stmt).1 = .done ∨ (r.execute floatSub stmt).2 = r := by
  cases stmt with
  | select s => exact .inr rfl
  | delete s => exact .inr rfl
  | insert s =>
    unfold Relations.execute
    dsimp only
    split
    · exact .inr rfl
    · split_ifs
      · exact .inl rfl
      · exact .inr rfl
  | createTable s =>
    unfold Relations.execute
    dsimp only
    split_ifs
    · exact .inr rfl
    · exact .inl rfl
  | drop s =>
    unfold Relations.execute
    dsimp only
    split_ifs
    · exact .inl rfl
    · exact .inr rfl

namespace Engine

variable {ν : Type} {rt : Runtime ν} {r : Relations} {line : Bytes}

theorem runLine_idle (h : Output.isSuccess (r.runLine rt line).1 = false) :
    (r.runLine rt line).2 = r := by
  unfold Relations.runLine at h ⊢
  split_ifs at h ⊢
  · rfl
  · rfl
  · cases hparse : Parser.doParse rt.stof line with
    | none => rfl
    | some x =>
      rcases x with rc | ⟨stmt, l⟩
      · rfl
      · rw [hparse] at h
        dsimp only at h ⊢
        rcases r.execute_idle rt.floatSub stmt with hdone | hsame
        · rw [hdone] at h
          cases h
        · exact hsame

/-- From an empty directory on, a session in which only those lines are typed that have printed `Success`
prints nothing else and leaves the same relations in the files. -/
theorem successful_lines_suffice (hrt : rt.Lawful) {sessions : List ShellSession}
    (h : Machine.Allowed (ShellSession.answers rt) (fun r se => se.Ok rt r) ∅ sessions) :
    ∃ outs d r, Machine.run (ShellSession.run rt) {} sessions = some (outs, d) ∧ Saved rt d r ∧
      ∀ se : ShellSession,
        se.lines = Machine.picked Output.isSuccess (sessions.flatMap ShellSession.lines) outs.flatten →
        ∃ outs' d', se.run rt {} = some (outs', d') ∧ (∀ out ∈ outs', out = .success) ∧
          Saved rt d' r := by
  obtain ⟨d, hrun, hd⟩ := (implements_sessions hrt).run saved_empty h
  have hidle : ∀ (r : Relations) (line : Bytes), Output.isSuccess (r.runLine rt line).1 = false →
      (r.runLine rt line).2 = r := fun _ _ => runLine_idle
  have hallowed := Machine.allowed_batches.1 h
  obtain ⟨houts, hr⟩ := Prod.mk.inj
    (Machine.answers_batches (Relations.runLine rt) ShellSession.lines ∅ sessions)
  refine ⟨_, d, _, hrun, hd, fun se hse => ?_⟩
  have hlines : se.lines = Machine.picked Output.isSuccess (sessions.flatMap ShellSession.lines)
      (Machine.answers (Relations.runLine rt) ∅ (sessions.flatMap ShellSession.lines)).1 :=
    hse.trans (congrArg _ houts.symm)
  have hanswers : se.answers rt ∅ = _ :=
    (congrArg (Machine.answers (Relations.runLine rt) ∅) hlines).trans (Machine.answers_picked hidle)
  have hok : se.Ok rt ∅ := by
    unfold ShellSession.Ok
    rw [hlines]
    exact hallowed.picked hidle
  obtain ⟨d', hrun', hd'⟩ := implements_sessions hrt {} ∅ se saved_empty hok
  rw [hanswers] at hrun' hd'
  refine ⟨_, d', hrun', fun out hout => ?_, hr ▸ hd'⟩
  exact of_decide_eq_true (List.mem_filter.1 hout).2

/-- What is left of `twoSessions`. -/
def fourLines : ShellSession :=
  ⟨id, List.Perm.refl, fun _ => 0, [str "CREATE TABLE t (a INT, b CHAR(2));",
    str "INSERT INTO t VALUES (7, 'xy');", str "CREATE TABLE s (d VARCHAR(9));",
    str "DROP TABLE s;"]⟩

theorem successful_lines_suffice_two_sessions :
    ∃ outs d, fourLines.run integral {} = some (outs, d) ∧ ∀ out ∈ outs, out = .success := by
  have hok : Machine.Allowed (ShellSession.answers integral) (fun r se => se.Ok integral r) ∅
      twoSessions := by decide +kernel
  obtain ⟨d₁, hrun₁, _⟩ := (implements_sessions lawful_integral).run saved_empty hok
  obtain ⟨outs, d, r, hrun, _, hreplay⟩ := successful_lines_suffice lawful_integral hok
  have houts : outs = (Machine.answers (ShellSession.answers integral) ∅ twoSessions).1 :=
    (Prod.mk.inj (Option.some.inj (hrun.symm.trans hrun₁))).1
  have hlines : fourLines.lines = Machine.picked Output.isSuccess
      (twoSessions.flatMap ShellSession.lines) outs.flatten := by
    rw [houts]
    decide +kernel
  obtain ⟨outs', d', h, hsuccess, _⟩ := hreplay fourLines hlines
  exact ⟨outs', d', h, hsuccess⟩

end Engine

end Tadis
