import Tadis.Engine

/-!
# The names of the metadata files

The point before `json` in the pattern stands for any character, so there are paths that match and
have no point behind their first two characters.
-/

namespace Tadis.Catalog

variable {word path name : Bytes} {c : UInt8}

theorem point_ne {c : UInt8} (h : Lexer.isIdPart c = true) : c ≠ 0x2E := by
  rintro rfl
  revert h
  decide

theorem matchesJson_iff : matchesJson (str "./" ++ path) = true ↔
    ∃ word c, path = word ++ c :: str "json" ∧ Identifier word ∧ word ≠ [] ∧ anyChar c = true := by
  have htake : (str "./" ++ path).take 2 = [0x2E, 0x2F] := rfl
  have hdrop : (str "./" ++ path).drop 2 = path := rfl
  rw [matchesJson, htake, hdrop]
  constructor
  · intro h
    cases hext : path.drop (path.length - 5) with
    | nil => simp [hext] at h
    | cons e ext =>
      rw [hext] at h
      simp only [Bool.and_eq_true, decide_eq_true_eq] at h
      obtain ⟨⟨⟨⟨_, hne⟩, hword⟩, he⟩, rfl⟩ := h
      refine ⟨path.take (path.length - 5), e, ?_, List.all_eq_true.1 hword, hne, he⟩
      rw [← hext, List.take_append_drop]
  · rintro ⟨word, c, rfl, hword, hne, hc⟩
    have hlen : (word ++ c :: str "json").length - 5 = word.length := by simp [str]
    rw [hlen, List.take_left, List.drop_left]
    simp only [Bool.and_eq_true, decide_eq_true_eq]
    exact ⟨⟨⟨⟨⟨by decide, by decide⟩, hne⟩, List.all_eq_true.2 hword⟩, hc⟩, trivial⟩

theorem takeWhile_point (hword : Identifier word) (rest : Bytes) :
    (word ++ 0x2E :: rest).takeWhile (· ≠ 0x2E) = word := by
  rw [List.takeWhile_append_of_pos fun c hc => decide_eq_true (point_ne (hword c hc)),
    List.takeWhile_cons_of_neg (by simp), List.append_nil]

theorem takeWhile_no_point (hword : Identifier word) (hc : c ≠ 0x2E) :
    (word ++ c :: str "json").takeWhile (· ≠ 0x2E) = word ++ c :: str "json" := by
  rw [List.takeWhile_append_of_pos fun c hc => decide_eq_true (point_ne (hword c hc)),
    List.takeWhile_cons_of_pos (by simpa using hc)]
  rfl

theorem isJson_of_matches (hword : Identifier word) (hne : word ≠ []) (hc : anyChar c = true) :
    isJson (str "./" ++ (word ++ c :: str "json")) = if c = 0x2E then some (some word) else none := by
  have hdrop : (str "./" ++ (word ++ c :: str "json")).drop 2 = word ++ c :: str "json" := rfl
  rw [isJson, if_pos (matchesJson_iff.2 ⟨word, c, rfl, hword, hne, hc⟩), hdrop]
  split_ifs with hpoint
  · rw [hpoint, takeWhile_point hword]
    exact if_pos (by simp)
  · rw [takeWhile_no_point hword hpoint]
    exact if_neg (lt_irrefl _)

theorem isJson_metaName (hname : Identifier name) (hne : name ≠ []) :
    isJson (str "./" ++ metaName name) = some (some name) :=
  isJson_of_matches hname hne (c := 0x2E) rfl

theorem isJson_some_iff : isJson (str "./" ++ path) = some (some name) ↔
    path = metaName name ∧ Identifier name ∧ name ≠ [] := by
  by_cases hm : matchesJson (str "./" ++ path) = true
  · obtain ⟨word, c, rfl, hword, hne, hc⟩ := matchesJson_iff.1 hm
    rw [isJson_of_matches hword hne hc]
    have hinj : word ++ c :: str "json" = metaName name → word = name ∧ c = 0x2E := by
      intro heq
      obtain ⟨hw, hcs⟩ := List.append_inj' heq rfl
      exact ⟨hw, (List.cons.inj hcs).1⟩
    split_ifs with hpoint
    · refine ⟨fun h => ?_, fun h => ?_⟩
      · obtain rfl : word = name := by simpa using h
        exact ⟨by rw [hpoint]; rfl, hword, hne⟩
      · rw [(hinj h.1).1]
    · exact ⟨fun h => (by cases h), fun h => absurd (hinj h.1).2 hpoint⟩
  · rw [isJson, if_neg hm]
    refine ⟨fun h => (by cases h), ?_⟩
    rintro ⟨rfl, hname, hne⟩
    exact absurd (matchesJson_iff.2 ⟨name, 0x2E, rfl, hname, hne, rfl⟩) hm

/-- Exactly the files `name.json` are metadata, of the table `name`. The start of the shell goes wrong
exactly on the files `word?json`. -/
theorem isJson_iff (path name : Bytes) :
    (isJson (str "./" ++ path) = some (some name) ↔
      path = metaName name ∧ Identifier name ∧ name ≠ []) ∧
    (isJson (str "./" ++ path) = none ↔ ∃ word c, path = word ++ c :: str "json" ∧
      Identifier word ∧ word ≠ [] ∧ c ≠ 0x0A ∧ c ≠ 0x0D ∧ c ≠ 0x2E) := by
  refine ⟨isJson_some_iff, ?_⟩
  by_cases hm : matchesJson (str "./" ++ path) = true
  · obtain ⟨word, c, rfl, hword, hne, hc⟩ := matchesJson_iff.1 hm
    rw [isJson_of_matches hword hne hc]
    have hc' : c ≠ 0x0A ∧ c ≠ 0x0D := by simpa [anyChar] using hc
    split_ifs with hpoint
    · refine ⟨fun h => (by cases h), fun h => ?_⟩
      obtain ⟨word', c', heq, _, _, _, _, hno⟩ := h
      exact absurd ((List.cons.inj (List.append_inj' heq rfl).2).1 ▸ hpoint) hno
    · exact ⟨fun _ => ⟨word, c, rfl, hword, hne, hc'.1, hc'.2, hpoint⟩, fun _ => rfl⟩
  · rw [isJson, if_neg hm]
    refine ⟨fun h => (by cases h), ?_⟩
    rintro ⟨word, c, rfl, hword, hne, hn, hr, _⟩
    exact absurd (matchesJson_iff.2 ⟨word, c, rfl, hword, hne, by simp [anyChar, hn, hr]⟩) hm

end Tadis.Catalog
