/-
What a scanner comes to, byte by byte.

A loop of a scanner that ends is followed turn by turn. Of a loop that goes on for ever one shows an invariant: a place
in an endless word, or a separator with the last offset, where the scanner is stuck.

- `ByteCursor.skipWord_of_fit`, `ByteCursor.not_loopEnds_of_endless`: the end of a word is found if its offset is in
  range, and there is none in a word that fills the offsets up to the last one;
- `Scanner.not_loopEnds_of_stuck`: a scanner goes nowhere from a separator with the last offset;
- `ByteCursor.skipWord_eq_some_iff`, `Scanner.next_eq_some_iff`, `Scanner.collect_eq_some_iff`: each search finds the end
  of its loop if there is one;
- `Scanner.Tracks`: a scanner goes along with a lexer, and the bound on line numbers is never met in front of a token;
- `Scanner.agrees_next`: a scanner comes to the answers of the lexer, and to none where the lexer is stalled.
-/
import Mathlib.Tactic
import PolishCalc.Proofs.Token.Layout
import PolishCalc.Token.Scanner

namespace PolishCalc

open Text

/-! ## Bytes -/

theorem getElem?_bytes (input : ByteArray) (i : ℕ) : input[i]? = input.data.toList[i]? := by
  rw [Array.getElem?_toList]
  rfl

/-- the byte in front of the bytes from an offset on, and the bytes behind it -/
theorem bytes_cons (input : ByteArray) (i : ℕ) (b : UInt8) (q : List UInt8)
    (h : input.data.toList.drop i = b :: q) :
    i < input.size ∧ input[i]? = some b ∧ input.data.toList.drop (i + 1) = q := by
  have hb : input[i]? = some b := by rw [getElem?_bytes, ← List.head?_drop, h]; rfl
  refine ⟨?_, hb, ?_⟩
  · by_contra hle
    rw [getElem?_neg input i hle] at hb
    cases hb
  · rw [← List.drop_drop, h]
    rfl

theorem extract_bytes (input : ByteArray) (i : ℕ) (p q : List UInt8) (h : input.data.toList.drop i = p ++ q) :
    input.extract i (i + p.length) = ⟨p.toArray⟩ := by
  refine ByteArray.ext (Array.toList_inj.1 ?_)
  simp [List.extract_eq_take_drop, h]

namespace ByteCursor

theorem peek_eq (input : ByteArray) (k : ByteCursor) :
    k.peek input = (input.data.toList.drop k.offset.toNat).head? := by
  rw [List.head?_drop, peek, getElem?_bytes]

/-- with a byte in front and the next offset in range, a bump takes the cursor over that byte -/
theorem bump_eq (input : ByteArray) (k : ByteCursor) (b : UInt8) (q : List UInt8)
    (h : input.data.toList.drop k.offset.toNat = b :: q) (hfit : k.offset.toNat + 1 ≤ ByteOffset.last) :
    k.bump input = ⟨⟨k.offset.toNat + 1, hfit⟩, if b = 10 then min (k.line + 1) lastLine else k.line⟩ := by
  obtain ⟨hlt, hb, -⟩ := bytes_cons input k.offset.toNat b q h
  have hnext : ByteOffset.ofNat (min (k.offset.toNat + 1) input.size) = ⟨k.offset.toNat + 1, hfit⟩ := by
    simp only [ByteOffset.ofNat, ByteOffset.mk.injEq]
    omega
  simp [bump, peek, hb, hnext]

theorem left_bump_le (input : ByteArray) (k : ByteCursor) (h : (k.peek input).isSome = true) :
    (k.bump input).left input ≤ k.left input :=
  Nat.sub_le_sub_left (le_bump input k h) _

theorem left_bump_lt (input : ByteArray) (k : ByteCursor) (h : (k.peek input).isSome = true)
    (hk : k.offset.toNat ≠ ByteOffset.last) : (k.bump input).left input < k.left input := by
  have hlt := (lt_bump_iff input k).2 ⟨h, hk⟩
  rw [isSome_peek] at h
  unfold left
  omega

/-- only a cursor with the last offset leaves as much as it found -/
theorem last_of_left_bump (input : ByteArray) (k : ByteCursor) (h : (k.peek input).isSome = true)
    (hleft : ¬ (k.bump input).left input < k.left input) : k.offset.toNat = ByteOffset.last := by
  by_contra hne
  exact hleft (left_bump_lt input k h hne)

/-! ## Words -/

theorem wordTurn_of_end (input : ByteArray) (k : ByteCursor) (h : ∀ b ∈ k.peek input, isSeparatorByte b = true) :
    k.wordTurn input = some (.done k) := by
  unfold wordTurn
  cases hb : k.peek input with
  | none => rfl
  | some b => simp [h b hb]

theorem wordTurn_of_byte (input : ByteArray) (k : ByteCursor) (b : UInt8) (hb : k.peek input = some b)
    (h : isSeparatorByte b = false) : k.wordTurn input = some (.again (k.bump input)) := by
  unfold wordTurn
  simp [hb, h]

/-- a turn that goes on has passed over a byte of a word -/
theorem byte_of_wordTurn (input : ByteArray) (k k' : ByteCursor) (h : k.wordTurn input = some (.again k')) :
    (∃ b, k.peek input = some b ∧ isSeparatorByte b = false) ∧ k' = k.bump input := by
  unfold wordTurn at h
  split at h
  · cases h
  · next b hb =>
    split at h
    · cases h
    · next hsep =>
      cases h
      exact ⟨⟨b, hb, Bool.eq_false_iff.2 hsep⟩, rfl⟩

/-- the end of a word is found if its offset is in range -/
theorem skipWord_of_fit (input : ByteArray) (k : ByteCursor) (p q : List UInt8)
    (h : input.data.toList.drop k.offset.toNat = p ++ q) (hp : ∀ b ∈ p, isSeparatorByte b = false)
    (hq : ∀ b ∈ q.head?, isSeparatorByte b = true) (hfit : k.offset.toNat + p.length ≤ ByteOffset.last) :
    k.skipWord input = some ⟨⟨k.offset.toNat + p.length, hfit⟩, k.line⟩ := by
  induction p generalizing k with
  | nil => exact runLoop_of_done _ _ k k (wordTurn_of_end input k (by rw [peek_eq, h]; exact hq))
  | cons b p ih =>
    have hb : isSeparatorByte b = false := hp b List.mem_cons_self
    have hlf : b ≠ 10 := by rintro rfl; cases hb
    rw [List.length_cons] at hfit
    have hbump := bump_eq input k b (p ++ q) h (by omega)
    rw [if_neg hlf] at hbump
    obtain ⟨-, hpeek, hrest⟩ := bytes_cons input _ b (p ++ q) h
    have hoff : (k.bump input).offset.toNat = k.offset.toNat + 1 := by rw [hbump]
    have hless := left_bump_lt input k (by rw [peek, hpeek]; rfl) (by omega)
    rw [skipWord, runLoop_of_again _ _ k _ (wordTurn_of_byte input k b hpeek hb) hless]
    refine (ih (k.bump input) (by rw [hoff]; exact hrest) (fun c hc => hp c (List.mem_cons_of_mem b hc))
      (by rw [hoff]; omega)).trans ?_
    simp only [hbump, List.length_cons, Option.some.injEq, mk.injEq, ByteOffset.mk.injEq, and_true]
    omega

/-- there is a byte of a word at every offset from the cursor on -/
def InEndlessWord (input : ByteArray) (k : ByteCursor) : Prop :=
  ∀ i, k.offset.toNat ≤ i → i ≤ ByteOffset.last → ∃ b, input[i]? = some b ∧ isSeparatorByte b = false

theorem InEndlessWord.bump (input : ByteArray) (k : ByteCursor) (h : k.InEndlessWord input) :
    (k.bump input).InEndlessWord input := by
  obtain ⟨b, hb, -⟩ := h k.offset.toNat le_rfl k.offset.toNat_le
  have hle := le_bump input k (by rw [peek, hb]; rfl)
  exact fun i hi hlast => h i (hle.trans hi) hlast

/-- a byte of a word with the last offset is an endless word -/
theorem inEndlessWord_of_last (input : ByteArray) (k : ByteCursor) (b : UInt8) (hb : k.peek input = some b)
    (hsep : isSeparatorByte b = false) (hlast : k.offset.toNat = ByteOffset.last) : k.InEndlessWord input := by
  intro i hi hi'
  obtain rfl : i = k.offset.toNat := by omega
  exact ⟨b, hb, hsep⟩

/-- there is no end of a word that fills the offsets up to the last one -/
theorem not_loopEnds_of_endless (input : ByteArray) (k : ByteCursor) (h : k.InEndlessWord input) (k' : ByteCursor) :
    ¬ LoopEnds (wordTurn input) k k' := by
  refine not_loopEnds (wordTurn input) (InEndlessWord input) (fun k h => ?_) k h k'
  obtain ⟨b, hb, hsep⟩ := h k.offset.toNat le_rfl k.offset.toNat_le
  exact ⟨k.bump input, wordTurn_of_byte input k b hb hsep, h.bump input k⟩

theorem skipWord_of_endless (input : ByteArray) (k : ByteCursor) (h : k.InEndlessWord input) :
    k.skipWord input = none :=
  runLoop_eq_none _ _ k (not_loopEnds_of_endless input k h)

/-- a search for the end of a word finds it if there is one -/
theorem skipWord_eq_some_iff (input : ByteArray) (k k' : ByteCursor) :
    k.skipWord input = some k' ↔ LoopEnds (wordTurn input) k k' := by
  refine runLoop_eq_some_iff _ _ (fun k k₁ hturn hleft a => ?_) k k'
  obtain ⟨⟨b, hb, hsep⟩, rfl⟩ := byte_of_wordTurn input k k₁ hturn
  have hlast := last_of_left_bump input k (by rw [hb]; rfl) hleft
  have hendless := inEndlessWord_of_last input k b hb hsep hlast
  exact not_loopEnds_of_endless input _ (hendless.bump input k) a

theorem left_le_of_loopEnds (input : ByteArray) (k k' : ByteCursor) (h : LoopEnds (wordTurn input) k k') :
    k'.left input ≤ k.left input := by
  induction h with
  | done k a hturn =>
    unfold wordTurn at hturn
    split at hturn
    · cases hturn
      exact le_rfl
    · split at hturn <;> cases hturn
      exact le_rfl
  | again k k₁ a hturn _ ih =>
    obtain ⟨⟨b, hb, -⟩, rfl⟩ := byte_of_wordTurn input k k₁ hturn
    exact ih.trans (left_bump_le input k (by rw [hb]; rfl))

/-- behind a word there is less left than in front of it -/
theorem left_lt_of_skipWord (input : ByteArray) (k k' : ByteCursor) (b : UInt8) (hb : k.peek input = some b)
    (hsep : isSeparatorByte b = false) (h : k.skipWord input = some k') : k'.left input < k.left input := by
  have hends := (skipWord_eq_some_iff input k k').1 h
  have hlast : k.offset.toNat ≠ ByteOffset.last := fun hlast =>
    not_loopEnds_of_endless input k (inEndlessWord_of_last input k b hb hsep hlast) k' hends
  have hturn := wordTurn_of_byte input k b hb hsep
  cases hends with
  | done k a hdone =>
    rw [hturn] at hdone
    cases hdone
  | again k k₁ a hagain hends =>
    rw [hturn] at hagain
    cases hagain
    exact (left_le_of_loopEnds input _ k' hends).trans_lt (left_bump_lt input k (by rw [hb]; rfl) hlast)

end ByteCursor

namespace Scanner

theorem slice_eq (s : Scanner) (i : ℕ) (w : List Char) (q : List UInt8)
    (h : s.input.data.toList.drop i = encode w ++ q) : s.slice i (i + (encode w).length) = String.ofList w := by
  rw [slice, extract_bytes s.input i (encode w) q h, fromUTF8?_encode]
  rfl

theorem lineEnd_eq (input : ByteArray) (i : ℕ) (p q : List UInt8) (h : input.data.toList.drop i = p ++ q)
    (hp : 10 ∉ p) (hq : ∀ b ∈ q.head?, b = 10) : lineEnd input i = i + p.length := by
  induction p generalizing i with
  | nil =>
    unfold lineEnd
    split
    · next hlt =>
      have hb : input[i] ∈ q.head? := by
        rw [← List.nil_append q, ← h, List.head?_drop, ← getElem?_bytes, getElem?_pos input i hlt]
        rfl
      simp [hq _ hb]
    · rfl
  | cons b p ih =>
    obtain ⟨hlt, hb, hrest⟩ := bytes_cons input i b (p ++ q) h
    obtain ⟨hne, hp⟩ := List.ne_and_not_mem_of_not_mem_cons hp
    rw [getElem?_pos input i hlt, Option.some.injEq] at hb
    rw [lineEnd, dif_pos hlt, hb, if_neg (Ne.symm hne), ih (i + 1) hrest hp, List.length_cons]
    omega

/-- the scanner stands at a separator with the last offset -/
structure Stuck (s : Scanner) : Prop where
  finished : s.finished = false
  atTerminator : s.atTerminator = false
  offset : s.cursor.offset.toNat = ByteOffset.last
  separator : ∃ b, s.cursor.peek s.input = some b ∧ isSeparatorByte b = true

theorem restOfLine_of_lf (s : Scanner) (h : s.cursor.peek s.input = some 10) : s.restOfLine = [] := by
  rw [ByteCursor.peek_eq] at h
  have hend := lineEnd_eq s.input s.cursor.offset.toNat [] _ rfl (List.not_mem_nil)
    fun b hb => Option.some.inj (hb.symm.trans h)
  have hslice := slice_eq s s.cursor.offset.toNat [] _ rfl
  rw [restOfLine, hend]
  exact (congrArg String.toList hslice).trans String.toList_ofList

theorem Stuck.bump (s : Scanner) (h : s.Stuck) (b : UInt8) (hb : s.cursor.peek s.input = some b) :
    Stuck { s with cursor := s.cursor.bump s.input, atLineStart := b == 10 } := by
  have hoff := ByteCursor.bump_of_last s.input s.cursor h.offset (by rw [hb]; rfl)
  have hpeek : (s.cursor.bump s.input).peek s.input = s.cursor.peek s.input := by
    rw [ByteCursor.peek, ByteCursor.peek, hoff, h.offset]
  refine ⟨h.finished, ?_, hoff, by rw [hpeek]; exact h.separator⟩
  by_cases hlf : b = 10
  · have hline := restOfLine_of_lf { s with cursor := s.cursor.bump s.input, atLineStart := b == 10 }
      (by rw [hpeek, hb, hlf])
    unfold Scanner.atTerminator
    rw [hline, show isTerminatorLine [] = false from rfl, Bool.and_false]
  · unfold Scanner.atTerminator
    simp [hlf]

/-! ## One turn -/

theorem nextTurn_of_finished (s : Scanner) (h : s.finished = true) : s.nextTurn = some (.done (none, s)) := by
  unfold nextTurn
  rw [if_pos h]

theorem nextTurn_of_terminator (s : Scanner) (hfin : s.finished = false) (hterm : s.atTerminator = true) :
    s.nextTurn = some (.done (none, s.finish)) := by
  unfold nextTurn
  simp [hfin, hterm]

theorem nextTurn_at_end (s : Scanner) (hfin : s.finished = false) (hterm : s.atTerminator = false)
    (h : s.cursor.peek s.input = none) : s.nextTurn = some (.done (none, s.finish)) := by
  unfold nextTurn
  simp [hfin, hterm, h]

theorem nextTurn_at_separator (s : Scanner) (b : UInt8) (hfin : s.finished = false) (hterm : s.atTerminator = false)
    (h : s.cursor.peek s.input = some b) (hsep : isSeparatorByte b = true) :
    s.nextTurn = some (.again { s with cursor := s.cursor.bump s.input, atLineStart := b == 10 }) := by
  unfold nextTurn
  simp [hfin, hterm, h, hsep]

theorem nextTurn_at_word (s : Scanner) (b : UInt8) (hfin : s.finished = false) (hterm : s.atTerminator = false)
    (h : s.cursor.peek s.input = some b) (hsep : isSeparatorByte b = false) :
    s.nextTurn = s.word.map fun r => .done (some r.1, r.2) := by
  unfold nextTurn
  simp [hfin, hterm, h, hsep]

/-- a turn comes to the end of the input, passes over a separator or looks for the end of a word -/
theorem nextTurn_cases (s : Scanner) :
    (∃ s', s.nextTurn = some (.done (none, s'))) ∨
    (s.finished = false ∧ s.atTerminator = false ∧ ∃ b, s.cursor.peek s.input = some b ∧ isSeparatorByte b = true ∧
      s.nextTurn = some (.again { s with cursor := s.cursor.bump s.input, atLineStart := b == 10 })) ∨
    ∃ b, s.cursor.peek s.input = some b ∧ isSeparatorByte b = false ∧
      s.nextTurn = s.word.map fun r => .done (some r.1, r.2) := by
  by_cases hfin : s.finished = true
  · exact Or.inl ⟨_, nextTurn_of_finished s hfin⟩
  rw [Bool.not_eq_true] at hfin
  by_cases hterm : s.atTerminator = true
  · exact Or.inl ⟨_, nextTurn_of_terminator s hfin hterm⟩
  rw [Bool.not_eq_true] at hterm
  cases hb : s.cursor.peek s.input with
  | none => exact Or.inl ⟨_, nextTurn_at_end s hfin hterm hb⟩
  | some b =>
    cases hsep : isSeparatorByte b with
    | true => exact Or.inr (Or.inl ⟨hfin, hterm, b, rfl, hsep, nextTurn_at_separator s b hfin hterm hb hsep⟩)
    | false => exact Or.inr (Or.inr ⟨b, rfl, hsep, nextTurn_at_word s b hfin hterm hb hsep⟩)

/-- a turn that goes on has passed over a separator -/
theorem separator_of_nextTurn (s s' : Scanner) (h : s.nextTurn = some (.again s')) :
    s.finished = false ∧ s.atTerminator = false ∧ ∃ b, s.cursor.peek s.input = some b ∧ isSeparatorByte b = true ∧
      s' = { s with cursor := s.cursor.bump s.input, atLineStart := b == 10 } := by
  rcases s.nextTurn_cases with ⟨s₁, hturn⟩ | ⟨hfin, hterm, b, hb, hsep, hturn⟩ | ⟨b, hb, hsep, hturn⟩ <;>
  rw [h] at hturn
  · cases hturn
  · cases hturn
    exact ⟨hfin, hterm, b, hb, hsep, rfl⟩
  · simp [eq_comm] at hturn

/-- a turn that ends with a token has come to the end of a word -/
theorem word_of_nextTurn (s s' : Scanner) (t : Token) (h : s.nextTurn = some (.done (some t, s'))) :
    ∃ b, s.cursor.peek s.input = some b ∧ isSeparatorByte b = false ∧ s.word = some (t, s') := by
  rcases s.nextTurn_cases with ⟨s₁, hturn⟩ | ⟨-, -, b, -, -, hturn⟩ | ⟨b, hb, hsep, hturn⟩ <;>
  rw [h] at hturn
  · cases hturn
  · cases hturn
  · obtain ⟨r, hr, hdone⟩ := Option.map_eq_some_iff.1 hturn.symm
    cases hdone
    exact ⟨b, hb, hsep, hr⟩

/-- there is no next token from a separator with the last offset on, and no end of the input either -/
theorem not_loopEnds_of_stuck (s : Scanner) (h : s.Stuck) (r : Option Token × Scanner) : ¬ LoopEnds nextTurn s r := by
  refine not_loopEnds nextTurn Stuck (fun s h => ?_) s h r
  obtain ⟨b, hb, hsep⟩ := h.separator
  exact ⟨_, nextTurn_at_separator s b h.finished h.atTerminator hb hsep, h.bump s b hb⟩

theorem next_of_stuck (s : Scanner) (h : s.Stuck) : s.next = none :=
  runLoop_eq_none _ _ s (not_loopEnds_of_stuck s h)

/-- a search for the next token comes to the end of its loop if there is one -/
theorem next_eq_some_iff (s : Scanner) (r : Option Token × Scanner) : s.next = some r ↔ LoopEnds nextTurn s r := by
  refine runLoop_eq_some_iff _ _ (fun s s₁ hturn hleft a => ?_) s r
  obtain ⟨hfin, hterm, b, hb, hsep, rfl⟩ := separator_of_nextTurn s s₁ hturn
  have hlast := ByteCursor.last_of_left_bump s.input s.cursor (by rw [hb]; rfl) hleft
  have hstuck : s.Stuck := ⟨hfin, hterm, hlast, b, hb, hsep⟩
  exact not_loopEnds_of_stuck _ (hstuck.bump s b hb) a

theorem next_at_separator (s : Scanner) (b : UInt8) (hfin : s.finished = false) (hterm : s.atTerminator = false)
    (h : s.cursor.peek s.input = some b) (hsep : isSeparatorByte b = true)
    (hlast : s.cursor.offset.toNat ≠ ByteOffset.last) :
    s.next = next { s with cursor := s.cursor.bump s.input, atLineStart := b == 10 } :=
  runLoop_of_again _ _ s _ (nextTurn_at_separator s b hfin hterm h hsep)
    (ByteCursor.left_bump_lt s.input s.cursor (by rw [h]; rfl) hlast)

theorem next_at_word (s : Scanner) (b : UInt8) (hfin : s.finished = false) (hterm : s.atTerminator = false)
    (h : s.cursor.peek s.input = some b) (hsep : isSeparatorByte b = false) :
    s.next = s.word.map fun r => (some r.1, r.2) := by
  have hturn := nextTurn_at_word s b hfin hterm h hsep
  cases hword : s.word with
  | none =>
    rw [hword] at hturn
    exact runLoop_of_none _ _ s hturn
  | some r =>
    rw [hword] at hturn
    exact runLoop_of_done _ _ s _ hturn

/-- behind a token there is less left than in front of it -/
theorem left_lt_of_next (s s' : Scanner) (t : Token) (h : s.next = some (some t, s')) : s'.left < s.left := by
  have hends := (next_eq_some_iff s _).1 h
  generalize hr : (some t, s') = r at hends
  induction hends with
  | done s a hturn =>
    subst hr
    obtain ⟨b, hb, hsep, hword⟩ := word_of_nextTurn s s' t hturn
    obtain ⟨k, hk, heq⟩ := Option.bind_eq_some_iff.1 hword
    cases heq
    exact ByteCursor.left_lt_of_skipWord s.input s.cursor k b hb hsep hk
  | again s s₁ a hturn hends ih =>
    obtain ⟨-, -, b, hb, -, rfl⟩ := separator_of_nextTurn s s₁ hturn
    exact (ih ((next_eq_some_iff _ _).2 (hr ▸ hends)) hr).trans_le
      (ByteCursor.left_bump_le s.input s.cursor (by rw [hb]; rfl))

theorem tokensTurn_of_token (acc : Array Token) (s s' : Scanner) (t : Token) (h : s.next = some (some t, s')) :
    tokensTurn (acc, s) = some (.again (acc.push t, s')) := by
  simp [tokensTurn, h]

theorem tokensTurn_of_end (acc : Array Token) (s s' : Scanner) (h : s.next = some (none, s')) :
    tokensTurn (acc, s) = some (.done acc.toList) := by
  simp [tokensTurn, h]

theorem tokensTurn_of_none (acc : Array Token) (s : Scanner) (h : s.next = none) : tokensTurn (acc, s) = none := by
  simp [tokensTurn, h]

theorem collect_of_token (acc : Array Token) (s s' : Scanner) (t : Token) (h : s.next = some (some t, s')) :
    s.collect acc = s'.collect (acc.push t) :=
  runLoop_of_again _ _ (acc, s) _ (tokensTurn_of_token acc s s' t h) (left_lt_of_next s s' t h)

theorem collect_of_end (acc : Array Token) (s s' : Scanner) (h : s.next = some (none, s')) :
    s.collect acc = some acc.toList :=
  runLoop_of_done _ _ (acc, s) _ (tokensTurn_of_end acc s s' h)

theorem collect_of_none (acc : Array Token) (s : Scanner) (h : s.next = none) : s.collect acc = none :=
  runLoop_of_none _ _ (acc, s) (tokensTurn_of_none acc s h)

/-- a search for all tokens comes to the end of its loop if there is one -/
theorem collect_eq_some_iff (acc : Array Token) (s : Scanner) (ts : List Token) :
    s.collect acc = some ts ↔ LoopEnds tokensTurn (acc, s) ts := by
  refine runLoop_eq_some_iff _ _ (fun p p' hturn hleft a => ?_) (acc, s) ts
  obtain ⟨acc, s⟩ := p
  -- a token always leaves less
  rcases hnext : s.next with _ | ⟨_ | t, s'⟩
  · rw [tokensTurn_of_none acc s hnext] at hturn
    cases hturn
  · rw [tokensTurn_of_end acc s s' hnext] at hturn
    cases hturn
  · rw [tokensTurn_of_token acc s s' t hnext] at hturn
    cases hturn
    exact absurd (left_lt_of_next s s' t hnext) hleft

/-! ## The lexer that goes along -/

/-- the scanner stands where the lexer stands and is in the same state, as far as line numbers go -/
structure Tracks (s : Scanner) (lx : Lexer) : Prop where
  rest : s.input.data.toList.drop s.cursor.offset.toNat = encode lx.cursor.rest
  offset : s.cursor.offset = lx.cursor.offset
  line : s.cursor.line = min lx.cursor.line lastLine
  line_le : lx.cursor.line ≤ lx.cursor.offset.toNat + 1
  mode : s.mode = lx.mode
  atLineStart : s.atLineStart = lx.atLineStart
  finished : s.finished = lx.finished

theorem tracks_ofText (text : String) (mode : InputMode) : (ofText text mode).Tracks (Lexer.ofText text mode) := by
  refine ⟨?_, rfl, rfl, le_rfl, rfl, rfl, rfl⟩
  have h := toByteArray_encode text.toList
  rw [String.utf8Encode_toList] at h
  exact congrArg (fun b => b.data.toList) h

theorem Tracks.finish (s : Scanner) (lx : Lexer) (h : s.Tracks lx) : s.finish.Tracks lx.finish :=
  ⟨h.rest, h.offset, h.line, h.line_le, h.mode, rfl, rfl⟩

theorem Tracks.restOfLine (s : Scanner) (lx : Lexer) (h : s.Tracks lx) : s.restOfLine = lx.cursor.restOfLine := by
  have hrest := h.rest
  have hsplit := List.takeWhile_append_dropWhile (p := (· != '\n')) (l := lx.cursor.rest)
  rw [← hsplit, encode_append] at hrest
  have hfree : 10 ∉ encode (lx.cursor.rest.takeWhile (· != '\n')) := by
    rw [mem_encode_iff '\n' 10 rfl (by decide)]
    intro hmem
    simpa using List.mem_takeWhile_imp hmem
  have hhead : ∀ b ∈ (encode (lx.cursor.rest.dropWhile (· != '\n'))).head?, b = 10 := by
    cases hd : lx.cursor.rest.dropWhile (· != '\n') with
    | nil => simp [encode]
    | cons c r =>
      have hc := List.head?_dropWhile_not (· != '\n') lx.cursor.rest
      simp only [hd, List.head?_cons, bne_eq_false_iff_eq] at hc
      subst hc
      exact fun b hb => (Option.some.inj hb).symm
  have hend := lineEnd_eq s.input s.cursor.offset.toNat _ _ hrest hfree hhead
  rw [Scanner.restOfLine, hend, slice_eq s _ _ _ hrest]
  exact String.toList_ofList

theorem Tracks.atTerminator (s : Scanner) (lx : Lexer) (h : s.Tracks lx) : s.atTerminator = lx.atTerminator := by
  unfold Scanner.atTerminator Lexer.atTerminator InputMode.endsAt
  rw [h.restOfLine, h.atLineStart, h.mode, Bool.and_assoc]

theorem Tracks.peek (s : Scanner) (lx : Lexer) (h : s.Tracks lx) :
    s.cursor.peek s.input = (encode lx.cursor.rest).head? := by
  rw [ByteCursor.peek_eq, h.rest]

end Scanner

/-- a separator is a byte that separates words, and a line feed is the byte 10 -/
theorem encode_separator (c : Char) (h : isSeparator c = true) :
    ∃ b, String.utf8EncodeChar c = [b] ∧ isSeparatorByte b = true ∧ (b = 10 ↔ c = '\n') := by
  simp only [isSeparator, Bool.or_eq_true, beq_iff_eq] at h
  rcases h with (((rfl | rfl) | rfl) | rfl) | rfl
  all_goals exact ⟨_, rfl, by decide, by decide⟩

/-- a cursor that gets stuck in its word has a word that goes on behind the last offset -/
theorem Cursor.lt_of_afterWord (k : Cursor) (h : k.afterWord? = none) :
    ByteOffset.last < k.offset.toNat + (encode k.word).length := by
  fun_induction afterWord? k with
  | case1 => cases h
  | case2 => cases h
  | case3 k c r hr hs hm ih =>
    have hmoved := moved_of_canMove k c r hr hm
    have hlt := ih h
    rw [hmoved.offset] at hlt
    rw [word_of_not_separator k c r hr hs hmoved, encode_append, List.length_append]
    omega
  | case4 k c r hr hs hm =>
    rw [canMove_iff k c r hr] at hm
    rw [word, hr, List.takeWhile_cons_of_pos (by simpa using hs), encode_cons, List.length_append,
      String.length_utf8EncodeChar]
    omega

theorem Cursor.word_append (k : Cursor) : ∃ v, k.rest = k.word ++ v :=
  ⟨_, List.takeWhile_append_dropWhile.symm⟩

/-- to go on counting from a bounded count makes no difference -/
theorem min_succ_min (n m : ℕ) : min (min n m + 1) m = min (n + 1) m := by omega

namespace Scanner

/-- the scanner comes to the answer of the lexer, and to none when the lexer is stalled -/
inductive Agrees : Scan → Option (Option Token × Scanner) → Prop
  | token (t : Token) (after : Lexer) (s : Scanner) (h : s.Tracks after) : Agrees (.token t after) (some (some t, s))
  | finished (after : Lexer) (s : Scanner) (h : s.Tracks after) : Agrees (.finished after) (some (none, s))
  | stalled : Agrees .stalled none

/-- a scanner that passes over a separator goes along with the lexer -/
theorem Tracks.bump (s : Scanner) (lx : Lexer) (h : s.Tracks lx) (c : Char) (r : List Char) (b : UInt8)
    (hr : lx.cursor.rest = c :: r) (hm : lx.cursor.canMove = true) (hc : String.utf8EncodeChar c = [b])
    (hlf : b = 10 ↔ c = '\n') (hfin : lx.finished = false) :
    Tracks { s with cursor := s.cursor.bump s.input, atLineStart := b == 10 }
      ⟨lx.mode, lx.cursor.bump, c == '\n', false⟩ := by
  have hmoved := Cursor.moved_of_canMove lx.cursor c r hr hm
  have hfit := (Cursor.canMove_iff lx.cursor c r hr).1 hm
  have hsize : c.utf8Size = 1 := by rw [← String.length_utf8EncodeChar, hc]; rfl
  rw [hsize] at hfit
  have hrest := h.rest
  rw [hr, encode_cons, hc, List.singleton_append] at hrest
  have hbump := ByteCursor.bump_eq s.input s.cursor b (encode r) hrest (by rw [h.offset]; exact hfit)
  have hoff : lx.cursor.bump.offset.toNat = lx.cursor.offset.toNat + 1 := by simp [hmoved.offset, encode, hc]
  have hline : lx.cursor.bump.line = if b = 10 then lx.cursor.line + 1 else lx.cursor.line := by
    by_cases hb : b = 10
    · simp [hmoved.line, hlf.1 hb, hb]
    · have hc : c ≠ '\n' := fun hn => hb (hlf.2 hn)
      simp [hmoved.line, hc, hb]
  refine ⟨?_, ?_, ?_, ?_, h.mode, ?_, h.finished.trans hfin⟩
  · rw [Cursor.rest_bump lx.cursor c r hr hmoved]
    simp only [hbump]
    exact (bytes_cons s.input _ b (encode r) hrest).2.2
  · simp only [hbump, h.offset]
    exact ByteOffset.eq_of_toNat _ _ hoff.symm
  · simp only [hbump, hline, h.line]
    split
    · exact min_succ_min _ _
    · rfl
  · have hle := h.line_le
    simp only [hline, hoff]
    split <;> omega
  · exact Bool.eq_iff_iff.2 (by simpa using hlf)

/-- a line number that is followed by a byte of a token is below its bound -/
theorem Tracks.line_eq (s : Scanner) (lx : Lexer) (h : s.Tracks lx)
    (hlt : lx.cursor.offset.toNat < ByteOffset.last) : s.cursor.line = lx.cursor.line := by
  have hle := h.line_le
  have hmax : lastLine = ByteOffset.last := rfl
  rw [h.line, hmax]
  omega

/-- the scanner finds the end of a word where the lexer does -/
theorem Tracks.skipWord (s : Scanner) (lx : Lexer) (h : s.Tracks lx) (k : Cursor)
    (hk : lx.cursor.afterWord? = some k) : s.cursor.skipWord s.input = some ⟨k.offset, s.cursor.line⟩ := by
  obtain ⟨hmoved, hhead⟩ := Cursor.moved_of_afterWord lx.cursor k hk
  have hrest := h.rest
  rw [hmoved.rest, encode_append] at hrest
  have hstop : s.cursor.offset.toNat + (encode lx.cursor.word).length = k.offset.toNat := by
    rw [h.offset, hmoved.offset]
  have hskip := ByteCursor.skipWord_of_fit s.input s.cursor _ _ hrest ?_ ?_ (hstop ▸ k.offset.toNat_le)
  · rw [hskip, Option.some.injEq, ByteCursor.mk.injEq]
    exact ⟨ByteOffset.eq_of_toNat _ _ hstop, rfl⟩
  · intro b hb
    obtain ⟨c, hc, hbc⟩ := List.mem_flatMap.1 hb
    rw [isSeparatorByte_of_mem c b hbc, lx.cursor.isSeparator_of_mem_word c hc]
  · intro b hb
    cases hr : k.rest with
    | nil => simp [hr, encode] at hb
    | cons c r =>
      obtain ⟨b', hc, hb', -⟩ := encode_separator c (hhead c (by simp [hr]))
      rw [hr, encode_cons, hc] at hb
      obtain rfl := Option.some.inj hb
      exact hb'

/-- the scanner gets stuck in a word where the lexer does -/
theorem Tracks.inEndlessWord (s : Scanner) (lx : Lexer) (h : s.Tracks lx) (hk : lx.cursor.afterWord? = none) :
    s.cursor.InEndlessWord s.input := by
  intro i hi hlast
  rw [h.offset] at hi
  have hlt := lx.cursor.lt_of_afterWord hk
  obtain ⟨v, hv⟩ := lx.cursor.word_append
  have hrest := h.rest
  rw [hv, encode_append, h.offset] at hrest
  -- the byte at the offset is a byte of the word
  have hin : i - lx.cursor.offset.toNat < (encode lx.cursor.word).length := by omega
  have hbyte : s.input[i]? = (encode lx.cursor.word)[i - lx.cursor.offset.toNat]? := by
    rw [getElem?_bytes, ← List.getElem?_append_left hin, ← hrest, List.getElem?_drop, Nat.add_sub_cancel' hi]
  rw [List.getElem?_eq_getElem hin] at hbyte
  obtain ⟨c, hc, hbc⟩ := List.mem_flatMap.1 (List.getElem_mem hin)
  exact ⟨_, hbyte, by rw [isSeparatorByte_of_mem c _ hbc, lx.cursor.isSeparator_of_mem_word c hc]⟩

/-- a scanner that comes to the end of a word has the token of the lexer and goes along with it -/
theorem Tracks.word (s : Scanner) (lx : Lexer) (h : s.Tracks lx) (k : Cursor) (hk : lx.cursor.afterWord? = some k)
    (hne : lx.cursor.word ≠ []) (hfin : lx.finished = false) :
    ∃ s', s.word = some (⟨String.ofList lx.cursor.word, .between lx.cursor.line lx.cursor.offset k.offset⟩, s') ∧
      s'.Tracks ⟨lx.mode, k, false, false⟩ := by
  obtain ⟨hmoved, -⟩ := Cursor.moved_of_afterWord lx.cursor k hk
  have hrest := h.rest
  rw [hmoved.rest, encode_append, h.offset] at hrest
  have hlex := slice_eq s _ _ _ hrest
  rw [← hmoved.offset] at hlex
  have hline : k.line = lx.cursor.line := by
    have hlf := lx.cursor.line_feed_notMem_word
    rw [hmoved.line, List.count_eq_zero_of_not_mem hlf, Nat.add_zero]
  have hoff := hmoved.offset
  have hlt : lx.cursor.offset.toNat < ByteOffset.last := by
    have hpos := List.length_pos_of_ne_nil ((encode_eq_nil_iff lx.cursor.word).not.2 hne)
    have hlast := k.offset.toNat_le
    omega
  refine ⟨{ s with cursor := ⟨k.offset, s.cursor.line⟩, atLineStart := false }, ?_, ?_, rfl, ?_, ?_, h.mode, rfl,
    h.finished.trans hfin⟩
  · simp only [Scanner.word, h.skipWord s lx k hk, h.offset, hlex, h.line_eq s lx hlt, Option.bind_eq_bind,
      Option.bind_some, Option.pure_def]
  · simp only [hoff]
    rw [← List.drop_drop, hrest, List.drop_left]
  · simp only [hline, h.line]
  · have hle := h.line_le
    simp only [hline]
    omega

theorem Tracks.isOpen (s : Scanner) (lx : Lexer) (h : s.Tracks lx) (hopen : ¬ lx.finished = true)
    (hterm : ¬ lx.atTerminator = true) : s.finished = false ∧ s.atTerminator = false :=
  ⟨h.finished.trans (Bool.eq_false_iff.2 hopen), h.atTerminator.trans (Bool.eq_false_iff.2 hterm)⟩

/-- a separator in front of the lexer is one byte in front of the scanner -/
theorem Tracks.peek_separator (s : Scanner) (lx : Lexer) (h : s.Tracks lx) (c : Char) (r : List Char)
    (hr : lx.cursor.rest = c :: r) (hs : isSeparator c = true) :
    ∃ b, String.utf8EncodeChar c = [b] ∧ s.cursor.peek s.input = some b ∧ isSeparatorByte b = true ∧
      (b = 10 ↔ c = '\n') := by
  obtain ⟨b, hc, hb, hlf⟩ := encode_separator c hs
  refine ⟨b, hc, ?_, hb, hlf⟩
  rw [h.peek, hr, encode_cons, hc]
  rfl

/-- a word in front of the lexer is one in front of the scanner -/
theorem Tracks.peek_word (s : Scanner) (lx : Lexer) (h : s.Tracks lx) (c : Char) (r : List Char)
    (hr : lx.cursor.rest = c :: r) (hs : ¬ isSeparator c = true) :
    ∃ b, s.cursor.peek s.input = some b ∧ isSeparatorByte b = false := by
  obtain ⟨b, l, hbl⟩ := List.exists_cons_of_ne_nil (String.utf8EncodeChar_ne_nil (c := c))
  refine ⟨b, ?_, ?_⟩
  · rw [h.peek, hr, encode_cons, hbl]
    rfl
  · rw [isSeparatorByte_of_mem c b (by simp [hbl])]
    exact Bool.eq_false_iff.2 hs

/-- **A scanner does what the lexer does.** It comes to the same answer, and to none if the lexer is stalled. -/
theorem agrees_next (s : Scanner) (lx : Lexer) (h : s.Tracks lx) : Agrees lx.next s.next := by
  fun_induction Lexer.next lx generalizing s with
  | case1 lx hfin =>
    rw [next, runLoop_of_done _ _ s _ (nextTurn_of_finished s (h.finished.trans hfin))]
    exact .finished lx s h
  | case2 lx hopen hterm =>
    have hfin := h.finished.trans (Bool.eq_false_iff.2 hopen)
    rw [next, runLoop_of_done _ _ s _ (nextTurn_of_terminator s hfin (h.atTerminator.trans hterm))]
    exact .finished _ _ h.finish
  | case3 lx hopen hterm hr =>
    obtain ⟨hfin, ht⟩ := h.isOpen s lx hopen hterm
    have hend : s.cursor.peek s.input = none := by rw [h.peek, hr]; rfl
    rw [next, runLoop_of_done _ _ s _ (nextTurn_at_end s hfin ht hend)]
    exact .finished _ _ h.finish
  | case4 lx hopen hterm c r hr hs hm ih =>
    obtain ⟨hfin, ht⟩ := h.isOpen s lx hopen hterm
    obtain ⟨b, hc, hpeek, hb, hlf⟩ := h.peek_separator s lx c r hr hs
    have hlast : s.cursor.offset.toNat ≠ ByteOffset.last := by
      have hfit := (Cursor.canMove_iff lx.cursor c r hr).1 hm
      have hpos := c.utf8Size_pos
      rw [h.offset]
      omega
    rw [next_at_separator s b hfin ht hpeek hb hlast]
    exact ih _ (h.bump s lx c r b hr hm hc hlf (Bool.eq_false_iff.2 hopen))
  | case5 lx hopen hterm c r hr hs hm =>
    obtain ⟨hfin, ht⟩ := h.isOpen s lx hopen hterm
    obtain ⟨b, hc, hpeek, hb, -⟩ := h.peek_separator s lx c r hr hs
    have hlast : s.cursor.offset.toNat = ByteOffset.last := by
      have hsize : c.utf8Size = 1 := by rw [← String.length_utf8EncodeChar, hc]; rfl
      have hle := lx.cursor.offset.toNat_le
      rw [Cursor.canMove_iff lx.cursor c r hr, hsize] at hm
      rw [h.offset]
      omega
    rw [next_of_stuck s ⟨hfin, ht, hlast, b, hpeek, hb⟩]
    exact .stalled
  | case6 lx hopen hterm c r hr hs hk =>
    obtain ⟨hfin, ht⟩ := h.isOpen s lx hopen hterm
    obtain ⟨b, hb, hsep⟩ := h.peek_word s lx c r hr hs
    have hendless := h.inEndlessWord s lx hk
    rw [next_at_word s b hfin ht hb hsep, Scanner.word, ByteCursor.skipWord_of_endless _ _ hendless]
    exact .stalled
  | case7 lx hopen hterm c r hr hs k hk =>
    obtain ⟨hfin, ht⟩ := h.isOpen s lx hopen hterm
    obtain ⟨b, hb, hsep⟩ := h.peek_word s lx c r hr hs
    have hne : lx.cursor.word ≠ [] := by
      rw [Cursor.word, hr, List.takeWhile_cons_of_pos (by simpa using hs)]
      exact List.cons_ne_nil _ _
    obtain ⟨s', hword, htracks⟩ := h.word s lx k hk hne (Bool.eq_false_iff.2 hopen)
    rw [next_at_word s b hfin ht hb hsep, hword]
    exact .token _ _ _ htracks

end Scanner

end PolishCalc
