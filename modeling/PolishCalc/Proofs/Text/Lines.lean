/-
Texts written line by line.

- `line_induction`: a text is one line, or a line with a line feed behind it and a text after that;
- `linesWith_last`, `linesWith_cons`: the lines of such texts;
- `linesWith_append`: whole lines in front of a text are lines of it;
- `linesWith_flatMap`: the lines of a text that was written line by line are the lines that were written, if none of
  them holds a line feed or ends with a return;
- `trim_cons`: trimming keeps a first character that is not white space;
- `trim_dropReturn`, `words_dropReturn`: a return at the end of a line is neither content nor part of a word;
- `not_isSeparator_of_mem_words`: the words of a text hold no separator;
- `words_append_word`, `words_intercalate`: a word up to the next separator is the first word, and parts with a separator
  between them have the words of the parts;
- `words_of_mem_words`, `words_flatMap_lines`: a word is its only word, and a text has the words of its lines;
- `word_induction`: a text is one word or nothing, or that with a separator behind it and a text after that;
- `numberedWords`: the words of lines with the numbers of the lines.
-/
import Mathlib.Tactic
import PolishCalc.Text

namespace PolishCalc.Text

/-! ## Line by line -/

/-- induction over the lines of a text, from its last line to the first -/
theorem line_induction {α : Type} (lf : α) {motive : List α → Prop} (last : ∀ p, lf ∉ p → motive p)
    (line : ∀ p l, lf ∉ p → motive l → motive (p ++ lf :: l)) (l : List α) : motive l := by
  induction hlen : l.length using Nat.strong_induction_on generalizing l with
  | _ m ih =>
    by_cases h : lf ∈ l
    · obtain ⟨p, r, rfl, hp⟩ := List.eq_append_cons_of_mem h
      exact line p r hp (ih r.length (by simp [← hlen]; omega) r rfl)
    · exact last l h

/-- a line with its return is the line without it, and the return -/
theorem dropReturn_cases {α : Type} [DecidableEq α] (cr : α) (l : List α) :
    dropReturn cr l = l ∨ l = dropReturn cr l ++ [cr] := by
  unfold dropReturn
  split
  · next h => exact Or.inr (List.dropLast_append_getLast? cr h).symm
  · exact Or.inl rfl

theorem dropReturn_subset {α : Type} [DecidableEq α] (cr : α) (l : List α) : dropReturn cr l ⊆ l := by
  rcases dropReturn_cases cr l with h | h
  · rw [h]
    exact List.Subset.refl l
  · conv_rhs => rw [h]
    exact List.subset_append_left _ _

/-- a text without a line feed is one line as it stands, unless it is empty -/
theorem linesWith_last {α : Type} [DecidableEq α] (lf cr : α) (p : List α) (h : lf ∉ p) :
    linesWith lf cr p = if p.isEmpty then [] else [p] := by
  simp [linesWith, List.splitOn_eq_singleton h]

theorem linesWith_cons {α : Type} [DecidableEq α] (lf cr : α) (p l : List α) (h : lf ∉ p) :
    linesWith lf cr (p ++ lf :: l) = dropReturn cr p :: linesWith lf cr l := by
  have hne := List.splitOn_ne_nil lf l
  simp only [linesWith, List.splitOn_append_cons_self_of_not_mem h, List.dropLast_cons_of_ne_nil hne,
    List.getLast?_cons_of_ne_nil hne, List.map_cons, List.cons_append]

/-- whole lines in front of a text are lines of it -/
theorem linesWith_append {α : Type} [DecidableEq α] (lf cr : α) (x l : List α) (h : ∀ a ∈ x.getLast?, a = lf) :
    linesWith lf cr (x ++ l) = linesWith lf cr x ++ linesWith lf cr l := by
  induction x using line_induction lf with
  | last p hp =>
    -- a line that ends with a line feed holds one
    obtain rfl : p = [] := by
      by_contra hne
      have hlast := List.getLast?_eq_some_getLast hne
      exact hp (h _ hlast ▸ List.getLast_mem hne)
    rfl
  | line p r hp ih =>
    rw [List.append_assoc, List.cons_append, linesWith_cons lf cr p _ hp, linesWith_cons lf cr p r hp, List.cons_append,
      ih fun a ha => h a ?_]
    rw [List.getLast?_append_of_ne_nil _ (List.cons_ne_nil lf r)]
    cases r with
    | nil => cases ha
    | cons b r => rwa [List.getLast?_cons_cons]

/-- no line holds a line feed -/
theorem not_mem_of_mem_linesWith {α : Type} [DecidableEq α] (lf cr : α) (l p : List α) (h : p ∈ linesWith lf cr l) :
    lf ∉ p := by
  induction l using line_induction lf with
  | last q hq =>
    rw [linesWith_last lf cr q hq] at h
    split at h
    · cases h
    · rwa [List.mem_singleton.1 h]
  | line q l hq ih =>
    rw [linesWith_cons lf cr q l hq] at h
    rcases List.mem_cons.1 h with rfl | h
    · exact fun hmem => hq (dropReturn_subset cr q hmem)
    · exact ih h

/-- the pieces of a text by the first of them, which starts as the text does unless it is empty -/
theorem exists_splitOn_cons (l : List Char) :
    ∃ p ps, l.splitOn '\n' = p :: ps ∧ ∀ c ∈ p.head?, c ∈ l.head? := by
  cases l with
  | nil => exact ⟨[], [], rfl, by simp⟩
  | cons c l =>
    obtain ⟨p, ps, hps⟩ := List.exists_cons_of_ne_nil (List.splitOn_ne_nil '\n' l)
    rw [List.splitOn_cons_eq_if_modifyHead, hps]
    split
    · exact ⟨[], _, rfl, by simp⟩
    · exact ⟨c :: p, ps, rfl, by simp⟩

/-- what stands in front of the first line feed belongs to the first piece -/
theorem splitOn_append_of_splitOn (w l p : List Char) (ps : List (List Char)) (hw : '\n' ∉ w)
    (h : l.splitOn '\n' = p :: ps) : (w ++ l).splitOn '\n' = (w ++ p) :: ps := by
  induction w with
  | nil => exact h
  | cons c w ih =>
    obtain ⟨hc, hw⟩ := List.ne_and_not_mem_of_not_mem_cons hw
    rw [List.cons_append, List.splitOn_cons_eq_if_modifyHead, if_neg (by simpa using hc.symm), ih hw]
    rfl

/-! ## Texts that are written -/

theorem splitOn_flatMap {α : Type} [DecidableEq α] (lf : α) (ls : List (List α)) (h : ∀ l ∈ ls, lf ∉ l) :
    (ls.flatMap fun l => l ++ [lf]).splitOn lf = ls ++ [[]] := by
  induction ls with
  | nil => rfl
  | cons l ls ih =>
    have hl : lf ∉ l := h l List.mem_cons_self
    rw [List.flatMap_cons, List.append_assoc, List.singleton_append, List.splitOn_append_cons_self_of_not_mem hl,
      ih fun m hm => h m (List.mem_cons_of_mem l hm), List.cons_append]

theorem linesWith_flatMap {α : Type} [DecidableEq α] (lf cr : α) (ls : List (List α))
    (h : ∀ l ∈ ls, lf ∉ l ∧ l.getLast? ≠ some cr) : linesWith lf cr (ls.flatMap fun l => l ++ [lf]) = ls := by
  have hret : ls.map (dropReturn cr) = ls := by
    conv_rhs => rw [← List.map_id ls]
    exact List.map_congr_left fun l hl => if_neg (h l hl).2
  simp only [linesWith, splitOn_flatMap lf ls fun l hl => (h l hl).1]
  simp [hret]

theorem trim_cons (c : Char) (l : List Char) (h : isWhiteSpace c = false) : ∃ l', trim (c :: l) = c :: l' := by
  have hlast : [c].dropWhile isWhiteSpace = [c] := by simp [h]
  unfold trim
  rw [List.dropWhile_cons_of_neg (by simp [h]), List.reverse_cons, List.dropWhile_append]
  split_ifs
  · exact ⟨[], by rw [hlast]; rfl⟩
  · exact ⟨(l.reverse.dropWhile isWhiteSpace).reverse, by simp⟩

theorem trim_append_whiteSpace (l : List Char) (c : Char) (h : isWhiteSpace c = true) : trim (l ++ [c]) = trim l := by
  unfold trim
  rw [List.dropWhile_append]
  split
  · next hall =>
    rw [List.isEmpty_iff] at hall
    simp [hall, h]
  · simp [h]

theorem trim_dropReturn (l : List Char) : trim (dropReturn '\r' l) = trim l := by
  rcases dropReturn_cases '\r' l with h | h
  · rw [h]
  · conv_rhs => rw [h, trim_append_whiteSpace _ '\r' rfl]

theorem words_concat_separator (l : List Char) (c : Char) (h : isSeparator c = true) : words (l ++ [c]) = words l := by
  rw [words_append_separator l [] c h, words_eq_nil [] (by simp), List.append_nil]

theorem words_dropReturn (l : List Char) : words (dropReturn '\r' l) = words l := by
  rcases dropReturn_cases '\r' l with h | h
  · rw [h]
  · conv_rhs => rw [h, words_concat_separator _ '\r' rfl]

theorem separator_free_of_mem_splitOnP {α : Type} (p : α → Bool) (l : List α) :
    ∀ w ∈ l.splitOnP p, ∀ a ∈ w, p a = false := by
  induction l with
  | nil => simp
  | cons b l ih =>
    rw [List.splitOnP_cons_eq_if_modifyHead]
    split
    · exact List.forall_mem_cons.2 ⟨by simp, ih⟩
    · next hb =>
      obtain ⟨u, us, hus⟩ := List.exists_cons_of_ne_nil (List.splitOnP_ne_nil p l)
      rw [hus] at ih ⊢
      obtain ⟨hu, hrest⟩ := List.forall_mem_cons.1 ih
      exact List.forall_mem_cons.2 ⟨List.forall_mem_cons.2 ⟨by simpa using hb, hu⟩, hrest⟩

theorem not_mem_of_mem_splitOn {α : Type} [DecidableEq α] (a : α) (l p : List α) (h : p ∈ l.splitOn a) : a ∉ p := by
  rw [List.splitOn_eq_splitOnP] at h
  intro ha
  simpa using separator_free_of_mem_splitOnP _ l p h a ha

/-- a word of a text holds no separator -/
theorem not_isSeparator_of_mem_words (l w : List Char) (h : w ∈ words l) : ∀ c ∈ w, isSeparator c = false :=
  separator_free_of_mem_splitOnP isSeparator l w (List.mem_of_mem_filter h)

theorem words_cons_separator (c : Char) (l : List Char) (h : isSeparator c = true) : words (c :: l) = words l :=
  words_append_separator [] l c h

/-- a run without a separator, up to a separator or the end, is the first word -/
theorem words_append_word (w l : List Char) (hw : w ≠ []) (hsep : ∀ c ∈ w, isSeparator c = false)
    (hl : ∀ c ∈ l.head?, isSeparator c = true) : words (w ++ l) = w :: words l := by
  cases l with
  | nil => rw [List.append_nil, words_eq_singleton w hw hsep, words_eq_nil [] (by simp)]
  | cons c l =>
    have hc : isSeparator c = true := hl c rfl
    rw [words_append_separator w l c hc, words_eq_singleton w hw hsep, words_cons_separator c l hc,
      List.singleton_append]

theorem mem_intercalate {α : Type} (a b : α) (ls : List (List α)) (h : b ∈ [a].intercalate ls) :
    b = a ∨ ∃ l ∈ ls, b ∈ l := by
  induction ls with
  | nil => cases h
  | cons l ls ih =>
    cases ls with
    | nil => exact Or.inr ⟨l, List.mem_cons_self, by simpa using h⟩
    | cons m ls =>
      rw [List.intercalate_cons_cons, List.mem_append, List.mem_append, List.mem_singleton] at h
      rcases h with (hl | ha) | hrest
      · exact Or.inr ⟨l, List.mem_cons_self, hl⟩
      · exact Or.inl ha
      · exact (ih hrest).imp id fun ⟨k, hk, hb⟩ => ⟨k, List.mem_cons_of_mem l hk, hb⟩

theorem words_intercalate (c : Char) (h : isSeparator c = true) (ls : List (List Char)) :
    words ([c].intercalate ls) = ls.flatMap words := by
  induction ls with
  | nil => rfl
  | cons l ls ih =>
    cases ls with
    | nil => simp
    | cons m ls =>
      rw [List.intercalate_cons_cons, List.append_assoc, List.singleton_append, words_append_separator _ _ c h, ih]
      exact List.flatMap_cons.symm

theorem words_of_mem_words (l w : List Char) (h : w ∈ words l) : words w = [w] := by
  have hne : w ≠ [] := by simpa using (List.mem_filter.1 h).2
  exact words_eq_singleton w hne (not_isSeparator_of_mem_words l w h)

/-- a text without a separator is a word, unless it is empty -/
theorem words_of_not_isSeparator (w : List Char) (h : ∀ c ∈ w, isSeparator c = false) :
    words w = if w = [] then [] else [w] := by
  split
  · next hnil => exact words_eq_nil w (by simp [hnil])
  · next hne => exact words_eq_singleton w hne h

/-- a text has the words of its lines -/
theorem words_flatMap_lines (l : List Char) : (lines l).flatMap words = words l := by
  induction l using line_induction '\n' with
  | last p hp =>
    rw [lines, linesWith_last '\n' '\r' p hp]
    cases p with
    | nil => rfl
    | cons c p => exact List.flatMap_singleton words (c :: p)
  | line p l hp ih =>
    rw [lines, linesWith_cons '\n' '\r' p l hp, ← lines, List.flatMap_cons, ih, words_dropReturn,
      words_append_separator p l '\n' rfl]

/-- induction over the separators of a text, from its end -/
theorem word_induction {motive : List Char → Prop} (last : ∀ w, (∀ c ∈ w, isSeparator c = false) → motive w)
    (gap : ∀ w c l, (∀ d ∈ w, isSeparator d = false) → isSeparator c = true → motive l → motive (w ++ c :: l))
    (l : List Char) : motive l := by
  -- what has been passed since the last separator is carried along
  suffices h : ∀ w, (∀ c ∈ w, isSeparator c = false) → motive (w ++ l) from h [] (by simp)
  induction l with
  | nil =>
    intro w hw
    rw [List.append_nil]
    exact last w hw
  | cons c l ih =>
    intro w hw
    cases hc : isSeparator c with
    | true => exact gap w c l hw hc (ih [] (by simp))
    | false =>
      rw [List.append_cons w c l]
      exact ih (w ++ [c]) (List.forall_mem_append.2 ⟨hw, List.forall_mem_singleton.2 hc⟩)

/-! ## Words with the numbers of their lines -/

/-- the words of the lines, each with the number of its line, when the first line has the number `n` -/
def numberedWords : ℕ → List (List Char) → List (List Char × ℕ)
  | _, [] => []
  | n, l :: ls => (words l).map (fun w => (w, n)) ++ numberedWords (n + 1) ls

/-- lines with the same words have the same numbered words -/
theorem numberedWords_congr (n : ℕ) (ls ls' : List (List Char)) (h : ls.map words = ls'.map words) :
    numberedWords n ls = numberedWords n ls' := by
  induction ls generalizing ls' n with
  | nil => rw [List.map_eq_nil_iff.1 h.symm]
  | cons l ls ih =>
    obtain ⟨l', ls', rfl, hl, hls⟩ := List.map_eq_cons_iff.1 h.symm
    rw [numberedWords, numberedWords, hl, ih (n + 1) ls' hls.symm]

theorem numberedWords_append_blank (n : ℕ) (ls : List (List Char)) :
    numberedWords n (ls ++ [[]]) = numberedWords n ls := by
  induction ls generalizing n with
  | nil => rfl
  | cons l ls ih => rw [List.cons_append, numberedWords, numberedWords, ih]

end PolishCalc.Text
