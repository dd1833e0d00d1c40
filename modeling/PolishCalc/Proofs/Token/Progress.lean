/-
When a scanner comes to an end.

A lexer knows from the start at which offset it will have read all there is to read: its `extent`. It never changes, and
a lexer gets stuck exactly if it is past the last offset.

- `Lexer.next_extent`: an answer keeps the extent, and tells whether it is in range;
- `Scanner.next_outcome`: the same of the answers of a scanner, which is never answered where the lexer is stalled;
- `Scanner.collect_eq`, `Scanner.answers_eq`: what a scanner comes to, in one search for all tokens and call by call;
- `ends_iff_offsets_fit`: a scanner comes to an end exactly if the offsets come to the end of what is read;
- `no_end_of_blanks`: they do not in a text of 2^32 blanks.
-/
import Mathlib.Tactic
import PolishCalc.Proofs.Token.Scanner

namespace PolishCalc

open Text

/-! ## How far a lexer comes -/

namespace Lexer

/-- the offset at the end of what the lexer has still to read -/
def extent (lx : Lexer) : ℕ := lx.cursor.offset.toNat + (encode lx.scope).length

theorem scope_of_separator (lx : Lexer) (c : Char) (r : List Char) (hopen : ¬ lx.finished = true)
    (hterm : ¬ lx.atTerminator = true) (hr : lx.cursor.rest = c :: r) (hm : lx.cursor.canMove = true) :
    lx.scope = c :: scope ⟨lx.mode, lx.cursor.bump, c == '\n', false⟩ := by
  have hrest := Cursor.rest_bump lx.cursor c r hr (Cursor.moved_of_canMove lx.cursor c r hr hm)
  rw [scope_of_not_terminator lx hopen hterm, hr, InputMode.portionWithin_cons]
  simp [scope, hrest]

theorem scope_of_word (lx : Lexer) (k : Cursor) (hopen : ¬ lx.finished = true) (hterm : ¬ lx.atTerminator = true)
    (hk : lx.cursor.afterWord? = some k) : lx.scope = lx.cursor.word ++ scope ⟨lx.mode, k, false, false⟩ := by
  have hlf := lx.cursor.line_feed_notMem_word
  rw [scope_of_not_terminator lx hopen hterm, (Cursor.moved_of_afterWord lx.cursor k hk).1.rest,
    InputMode.portionWithin_append _ _ _ hlf]
  rfl

theorem next_extent (lx : Lexer) :
    match lx.next with
    | .token _ after => after.extent = lx.extent
    | .finished _ => lx.extent ≤ ByteOffset.last
    | .stalled => ByteOffset.last < lx.extent := by
  fun_induction next lx with
  | case1 lx hfin =>
    rw [extent, scope_of_finished lx hfin]
    exact lx.cursor.offset.toNat_le
  | case2 lx hopen hterm =>
    rw [extent, scope_of_terminator lx hterm]
    exact lx.cursor.offset.toNat_le
  | case3 lx hopen hterm hr =>
    rw [extent, scope_of_not_terminator lx hopen hterm, hr, InputMode.portionWithin_nil]
    exact lx.cursor.offset.toNat_le
  | case4 lx hopen hterm c r hr hs hm ih =>
    have hsame : extent ⟨lx.mode, lx.cursor.bump, c == '\n', false⟩ = lx.extent := by
      rw [extent, extent, scope_of_separator lx c r hopen hterm hr hm, encode_cons, List.length_append,
        (Cursor.moved_of_canMove lx.cursor c r hr hm).offset, Nat.add_assoc]
      simp [encode]
    rwa [hsame] at ih
  | case5 lx hopen hterm c r hr hs hm =>
    rw [Cursor.canMove_iff lx.cursor c r hr] at hm
    rw [extent, scope_of_not_terminator lx hopen hterm, hr, InputMode.portionWithin_cons, encode_cons,
      List.length_append, String.length_utf8EncodeChar]
    omega
  | case6 lx hopen hterm c r hr hs hk =>
    have hlt := lx.cursor.lt_of_afterWord hk
    have hlf := lx.cursor.line_feed_notMem_word
    obtain ⟨v, hv⟩ := lx.cursor.word_append
    rw [extent, scope_of_not_terminator lx hopen hterm, hv, InputMode.portionWithin_append _ _ _ hlf, encode_append,
      List.length_append]
    omega
  | case7 lx hopen hterm c r hr hs k hk =>
    simp only [extent]
    rw [scope_of_word lx k hopen hterm hk, encode_append, List.length_append,
      (Cursor.moved_of_afterWord lx.cursor k hk).1.offset, Nat.add_assoc]

end Lexer

/-! ## Whole texts -/

namespace Scanner

/-- the answers to a number of calls, if each of them is answered -/
def answers : ℕ → Scanner → Option (List (Option Token))
  | 0, _ => some []
  | k + 1, s => s.next.bind fun r => (answers k r.2).map (r.1 :: ·)

theorem answers_succ (k : ℕ) (s after : Scanner) (t : Option Token) (h : s.next = some (t, after)) :
    s.answers (k + 1) = (after.answers k).map (t :: ·) := by
  rw [answers, h]
  rfl

/-- a scanner answers as the lexer does, and is never answered if what it has still to read ends past the last offset -/
theorem next_outcome (s : Scanner) (lx : Lexer) (h : s.Tracks lx) :
    (∃ t after s', lx.next = .token t after ∧ s.next = some (some t, s') ∧ s'.Tracks after ∧
      after.extent = lx.extent) ∨
    (∃ after s', lx.next = .finished after ∧ s.next = some (none, s') ∧ s'.Tracks after ∧
      lx.extent ≤ ByteOffset.last) ∨
    (lx.next = .stalled ∧ s.next = none ∧ ByteOffset.last < lx.extent) := by
  have hext := lx.next_extent
  have hagree := agrees_next s lx h
  generalize hnext : lx.next = scan at hext hagree
  generalize hs : s.next = answer at hagree
  cases hagree with
  | token t after s' h' => exact Or.inl ⟨t, after, s', rfl, rfl, h', hext⟩
  | finished after s' h' => exact Or.inr (Or.inl ⟨after, s', rfl, rfl, h', hext⟩)
  | stalled => exact Or.inr (Or.inr ⟨rfl, rfl, hext⟩)

/-- a scanner collects the tokens of the lexer if the offsets come to the end of what is read, and none otherwise -/
theorem collect_eq (acc : Array Token) (s : Scanner) (lx : Lexer) (h : s.Tracks lx) :
    s.collect acc = if lx.extent ≤ ByteOffset.last then some (lx.collect acc) else none := by
  induction hlen : lx.cursor.rest.length using Nat.strong_induction_on generalizing acc s lx with
  | _ m ih =>
    obtain ⟨t, after, s', hnext, hs, h', hext⟩ | ⟨after, s', hnext, hs, -, hfit⟩ | ⟨-, hs, hlong⟩ := next_outcome s lx h
    · have hlt := Lexer.length_next lx after t hnext
      rw [collect_of_token acc s s' t hs, Lexer.collect_of_token acc lx after t hnext,
        ih after.cursor.rest.length (by omega) _ s' after h' rfl, hext]
    · rw [collect_of_end acc s s' hs, Lexer.collect_of_finished acc lx after hnext, if_pos hfit]
    · rw [collect_of_none acc s hs, if_neg (Nat.not_le.2 hlong)]

/-- the calls of a scanner are answered as those of the lexer, up to the call with which the lexer gets stuck -/
theorem answers_eq (k : ℕ) (s : Scanner) (lx : Lexer) (h : s.Tracks lx) :
    s.answers k =
      if lx.extent ≤ ByteOffset.last ∨ k ≤ lx.tokens.length then some (Lexer.calls k lx).1 else none := by
  induction k generalizing s lx with
  | zero => simp [answers, Lexer.calls]
  | succ k ih =>
    obtain ⟨t, after, s', hnext, hs, h', hext⟩ | ⟨after, s', hnext, hs, h', hfit⟩ | ⟨hnext, hs, hlong⟩ :=
      next_outcome s lx h
    · have htake : lx.take = (some t, after) := by rw [Lexer.take, hnext]
      rw [answers_succ k s s' _ hs, ih s' after h', hext, Lexer.tokens_of_token lx after t hnext, List.length_cons,
        Lexer.calls, htake]
      simp only [Nat.add_le_add_iff_right]
      split <;> rfl
    · have htake : lx.take = (none, after) := by rw [Lexer.take, hnext]
      have hafter : after.extent ≤ ByteOffset.last := by
        rw [Lexer.extent, Lexer.scope_of_finished after (Lexer.finished_of_next lx after hnext)]
        exact after.cursor.offset.toNat_le
      rw [answers_succ k s s' _ hs, ih s' after h', if_pos (Or.inl hafter), if_pos (Or.inl hfit), Lexer.calls, htake]
      rfl
    · have htokens : lx.tokens = [] := Lexer.collect_of_stalled #[] lx hnext
      have hno : ¬ (lx.extent ≤ ByteOffset.last ∨ k + 1 ≤ lx.tokens.length) := by
        rw [htokens, List.length_nil]
        omega
      rw [if_neg hno, answers, hs]
      rfl

/-- the number of bytes of a text that are read -/
def bytesRead (text : String) (mode : InputMode) : ℕ := (encode (mode.portion text.toList)).length

theorem extent_ofText (text : String) (mode : InputMode) :
    (Lexer.ofText text mode).extent = bytesRead text mode := by
  simp [Lexer.extent, Lexer.scope, Lexer.ofText, Cursor.start, ByteOffset.zero, bytesRead]

theorem tokenize_eq (text : String) (mode : InputMode) :
    tokenize text mode =
      if bytesRead text mode ≤ ByteOffset.last then some (PolishCalc.tokenize text mode) else none := by
  rw [tokenize, collect_eq #[] _ _ (tracks_ofText text mode), extent_ofText]
  rfl

/-- **When a scanner comes to an end.** A bump moves the cursor over the byte in front of it unless the cursor has the
last offset. So in either mode the loop over the tokens of a text comes to an end, and to the tokens of the lexer,
exactly if the offsets come to the end of what is read of the text. Otherwise it goes on for ever: the calls are
answered as long as there are tokens that end at an offset, and the loop of the next call has no end. -/
theorem ends_iff_offsets_fit (text : String) (mode : InputMode) :
    (∀ k : ByteCursor, k.offset.toNat < (k.bump text.toUTF8).offset.toNat ↔
      (k.peek text.toUTF8).isSome = true ∧ k.offset.toNat ≠ ByteOffset.last) ∧
    (∀ ts, LoopEnds tokensTurn (#[], ofText text mode) ts ↔
      bytesRead text mode ≤ ByteOffset.last ∧ ts = PolishCalc.tokenize text mode) ∧
    (∀ k k', k.skipWord text.toUTF8 = some k' ↔ LoopEnds (ByteCursor.wordTurn text.toUTF8) k k') ∧
    (∀ s r, next s = some r ↔ LoopEnds nextTurn s r) ∧
    ∀ k, (ofText text mode).answers k =
      if bytesRead text mode ≤ ByteOffset.last ∨ k ≤ (PolishCalc.tokenize text mode).length then
        some ((List.range k).map fun i => (PolishCalc.tokenize text mode)[i]?)
      else none := by
  refine ⟨ByteCursor.lt_bump_iff text.toUTF8, fun ts => ?_, ByteCursor.skipWord_eq_some_iff text.toUTF8,
    next_eq_some_iff, fun k => ?_⟩
  · have htokens := tokenize_eq text mode
    unfold tokenize at htokens
    rw [← collect_eq_some_iff, htokens, Option.ite_none_right_eq_some, Option.some.injEq]
    exact and_congr_right' eq_comm
  · rw [answers_eq k _ _ (tracks_ofText text mode), extent_ofText, (Lexer.calls_eq k (Lexer.ofText text mode)).1]
    rfl

/-! ## A text that is too long -/

def blanks (n : ℕ) : String := String.ofList (List.replicate n ' ')

theorem bytesRead_blanks (n : ℕ) : bytesRead (blanks n) .file = n := by
  have hsize : ' '.utf8Size = 1 := rfl
  simp [bytesRead, blanks, InputMode.portion, encode, hsize]

theorem size_blanks (n : ℕ) : (blanks n).toUTF8.size = n := by
  calc (blanks n).toUTF8.size = (encode (blanks n).toList).length := (length_encode (blanks n)).symm
    _ = n := bytesRead_blanks n

/-- among separators no token is found -/
theorem next_ne_token (lx : Lexer) (h : ∀ c ∈ lx.cursor.rest, isSeparator c = true) (t : Token) (after : Lexer) :
    lx.next ≠ .token t after := by
  fun_induction Lexer.next lx with
  | case1 => simp
  | case2 => simp
  | case3 => simp
  | case4 lx hopen hterm c r hr hs hm ih =>
    refine ih fun d hd => h d ?_
    rw [hr]
    exact List.mem_cons_of_mem c (Cursor.rest_bump lx.cursor c r hr (Cursor.moved_of_canMove lx.cursor c r hr hm) ▸ hd)
  | case5 => simp
  | case6 => simp
  | case7 lx hopen hterm c r hr hs => exact absurd (h c (by simp [hr])) hs

theorem next_blanks (n : ℕ) (h : ByteOffset.last < n) : (ofText (blanks n) .file).next = none := by
  have hrest : ∀ c ∈ (Lexer.ofText (blanks n) .file).cursor.rest, isSeparator c = true := by
    intro c hc
    rw [Lexer.ofText, Cursor.start, blanks, String.toList_ofList] at hc
    rw [List.eq_of_mem_replicate hc]
    rfl
  obtain ⟨t, after, -, hnext, -⟩ | ⟨-, -, -, -, -, hfit⟩ | ⟨-, hs, -⟩ :=
    next_outcome _ _ (tracks_ofText (blanks n) .file)
  · exact absurd hnext (next_ne_token _ hrest t after)
  · rw [extent_ofText, bytesRead_blanks] at hfit
    exact absurd hfit (Nat.not_le.2 h)
  · exact hs

/-- In a text of 2^32 blanks the search for the first token goes on for ever: there is one more byte behind the last
offset, and no bump moves the cursor over it. -/
theorem no_end_of_blanks :
    (∀ ts, ¬ LoopEnds tokensTurn (#[], ofText (blanks (2 ^ 32)) .file) ts) ∧
      (∀ r, ¬ LoopEnds nextTurn (ofText (blanks (2 ^ 32)) .file) r) ∧
      ∃ k : ByteCursor, (k.peek (blanks (2 ^ 32)).toUTF8).isSome = true ∧
        ¬ k.offset.toNat < (k.bump (blanks (2 ^ 32)).toUTF8).offset.toNat := by
  have hlong : ByteOffset.last < 2 ^ 32 := by decide
  have hnext := next_blanks (2 ^ 32) hlong
  refine ⟨fun ts h => ?_, fun r h => ?_, ⟨⟨⟨ByteOffset.last, le_rfl⟩, 1⟩, ?_, ?_⟩⟩
  · rw [← collect_eq_some_iff, collect_of_none _ _ hnext] at h
    cases h
  · rw [← next_eq_some_iff, hnext] at h
    cases h
  · rw [ByteCursor.isSome_peek, size_blanks]
    exact hlong
  · rw [ByteCursor.lt_bump_iff]
    exact fun h => h.2 rfl

end Scanner

end PolishCalc
