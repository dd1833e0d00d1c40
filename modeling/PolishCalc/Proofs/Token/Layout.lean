/-
Where the tokens of a text stand.

`Layout o n l ts` says that the tokens `ts` are the words of the text `l`, in order, when `l` starts at the offset `o` on
line `n`: one goes over `l`, a separator is passed over, and a word with no separator in it, up to the next separator or
the end, is the next token, with the offsets and the line where it stands.

- `Layout.eq_nil`, `Layout.of_separator`, `Layout.of_word`: a layout by what stands in front of the text;
- `Layout.unique`: a text has one layout;
- `Lexer.next_cases`: what a lexer with room for its text answers, as the next step of a layout. It never stalls;
- `Lexer.lays_tokens`, `layout_tokenize`: the tokens of a text are laid out over the part of it that is read;
- `lexemes_tokenize`: so their lexemes are the words of that part;
- `Lexer.calls_eq`: asking for tokens one by one gives the same tokens, and then none for ever.
-/
import Mathlib.Data.List.TakeWhile
import Mathlib.Tactic
import PolishCalc.Proofs.Text.Bytes
import PolishCalc.Proofs.Text.Terminator
import PolishCalc.Proofs.Token.Words

namespace PolishCalc

open Text

/-- the token is the word `w`, which stands at the offset `o` on line `n` -/
structure Token.IsAt (t : Token) (o n : ℕ) (w : List Char) : Prop where
  lexeme : t.lexeme = String.ofList w
  line : t.span.line = n
  start : t.span.start.toNat = o
  stop : t.span.stop.toNat = o + (encode w).length

/-- the tokens are the words of a text that starts at an offset on a line -/
inductive Layout : ℕ → ℕ → List Char → List Token → Prop
  | nil (o n : ℕ) : Layout o n [] []
  | gap (o n : ℕ) (c : Char) (l : List Char) (ts : List Token) (hc : isSeparator c = true)
      (h : Layout (o + c.utf8Size) (if c = '\n' then n + 1 else n) l ts) : Layout o n (c :: l) ts
  | word (o n : ℕ) (w l : List Char) (t : Token) (ts : List Token) (hw : w ≠ [])
      (hsep : ∀ c ∈ w, isSeparator c = false) (hl : ∀ c ∈ l.head?, isSeparator c = true) (ht : t.IsAt o n w)
      (h : Layout (o + (encode w).length) n l ts) : Layout o n (w ++ l) (t :: ts)

/-! ## One layout -/

theorem Token.IsAt.unique (t u : Token) (o n : ℕ) (w : List Char) (ht : t.IsAt o n w) (hu : u.IsAt o n w) : t = u := by
  obtain ⟨tlex, tline, ⟨tstart, _⟩, ⟨tstop, _⟩, _⟩ := t
  obtain ⟨ulex, uline, ⟨ustart, _⟩, ⟨ustop, _⟩, _⟩ := u
  obtain ⟨h1, h2, h3, h4⟩ := ht
  obtain ⟨h1', h2', h3', h4'⟩ := hu
  simp only at h1 h2 h3 h4 h1' h2' h3' h4'
  subst h1 h2 h3 h4 h1' h2' h3'
  cases h4'
  rfl

/-- a word is what stands in front of the next separator -/
theorem takeWhile_word (w l : List Char) (hsep : ∀ c ∈ w, isSeparator c = false)
    (hl : ∀ c ∈ l.head?, isSeparator c = true) : (w ++ l).takeWhile (fun c => !isSeparator c) = w := by
  rw [List.takeWhile_append_of_pos (by simpa using hsep)]
  cases l with
  | nil => simp
  | cons c l => simp [hl c rfl]

theorem isSeparator_head_word (w l : List Char) (hw : w ≠ []) (hsep : ∀ c ∈ w, isSeparator c = false) :
    ∃ c r, w ++ l = c :: r ∧ isSeparator c = false := by
  obtain ⟨c, w, rfl⟩ := List.exists_cons_of_ne_nil hw
  exact ⟨c, w ++ l, rfl, hsep c List.mem_cons_self⟩

theorem Layout.eq_nil (o n : ℕ) (ts : List Token) (h : Layout o n [] ts) : ts = [] := by
  generalize hx : [] = x at h
  cases h with
  | nil => rfl
  | gap => cases hx
  | word _ _ w l t us hw => exact absurd (List.append_eq_nil_iff.1 hx.symm).1 hw

/-- behind a separator in front there is the layout of what follows -/
theorem Layout.of_separator (o n : ℕ) (c : Char) (l : List Char) (ts : List Token) (hc : isSeparator c = true)
    (h : Layout o n (c :: l) ts) : Layout (o + c.utf8Size) (if c = '\n' then n + 1 else n) l ts := by
  generalize hx : c :: l = x at h
  cases h with
  | nil => cases hx
  | gap _ _ d r us hd h =>
    cases hx
    exact h
  | word _ _ w r t us hw hsep =>
    obtain ⟨d, r', hd, hdsep⟩ := isSeparator_head_word w r hw hsep
    rw [hd] at hx
    cases hx
    rw [hc] at hdsep
    cases hdsep

/-- a word in front is the first token, and behind it there is the layout of what follows -/
theorem Layout.of_word (o n : ℕ) (w l : List Char) (us : List Token) (hw : w ≠ [])
    (hsep : ∀ c ∈ w, isSeparator c = false) (hl : ∀ c ∈ l.head?, isSeparator c = true) (h : Layout o n (w ++ l) us) :
    ∃ u vs, us = u :: vs ∧ u.IsAt o n w ∧ Layout (o + (encode w).length) n l vs := by
  generalize hx : w ++ l = x at h
  cases h with
  | nil => exact absurd (List.append_eq_nil_iff.1 hx).1 hw
  | gap _ _ d r us hd =>
    obtain ⟨e, r', he, hesep⟩ := isSeparator_head_word w l hw hsep
    rw [he] at hx
    cases hx
    rw [hd] at hesep
    cases hesep
  | word _ _ v r u vs hv hvsep hr hu h =>
    have hwv : w = v := by rw [← takeWhile_word w l hsep hl, hx, takeWhile_word v r hvsep hr]
    subst hwv
    obtain rfl : l = r := List.append_cancel_left hx
    exact ⟨u, vs, rfl, hu, h⟩

/-- a text has one layout -/
theorem Layout.unique (o n : ℕ) (l : List Char) (ts us : List Token) (h : Layout o n l ts) (h' : Layout o n l us) :
    ts = us := by
  induction h generalizing us with
  | nil o n => exact (h'.eq_nil o n us).symm
  | gap o n c l ts hc _ ih => exact ih us (h'.of_separator o n c l us hc)
  | word o n w l t ts hw hsep hl ht _ ih =>
    obtain ⟨u, vs, rfl, hu, h'⟩ := h'.of_word o n w l us hw hsep hl
    rw [ht.unique t u o n w hu, ih vs h']

/-! ## The cursor -/

namespace Cursor

/-- the offsets up to the end of the text fit -/
def HasRoom (k : Cursor) : Prop := k.offset.toNat + (encode k.rest).length ≤ ByteOffset.last

/-- the cursor `k'` is the cursor `k` moved over the characters `w` -/
structure Moved (k k' : Cursor) (w : List Char) : Prop where
  rest : k.rest = w ++ k'.rest
  offset : k'.offset.toNat = k.offset.toNat + (encode w).length
  line : k'.line = k.line + w.count '\n'

theorem Moved.hasRoom (k k' : Cursor) (w : List Char) (h : k.Moved k' w) (hroom : k.HasRoom) : k'.HasRoom := by
  rw [HasRoom, h.rest, encode_append, List.length_append] at hroom
  rw [HasRoom, h.offset]
  omega

theorem Moved.trans (k k' k'' : Cursor) (v w : List Char) (h : k.Moved k' v) (h' : k'.Moved k'' w) :
    k.Moved k'' (v ++ w) := by
  refine ⟨by rw [h.rest, h'.rest, List.append_assoc], ?_, ?_⟩
  · rw [h'.offset, h.offset, encode_append, List.length_append, Nat.add_assoc]
  · rw [h'.line, h.line, List.count_append, Nat.add_assoc]

theorem moved_nil (k : Cursor) : k.Moved k [] := ⟨rfl, rfl, rfl⟩

/-- a cursor moves over a character exactly if the offset behind the character fits -/
theorem canMove_iff (k : Cursor) (c : Char) (r : List Char) (hr : k.rest = c :: r) :
    k.canMove = true ↔ k.offset.toNat + c.utf8Size ≤ ByteOffset.last := by
  have hsize := c.utf8Size_pos
  by_cases hfit : k.offset.toNat + c.utf8Size ≤ ByteOffset.last
  · simp [canMove, bump, hr, hfit, hsize]
  · simp [canMove, bump, hr, hfit]

theorem moved_of_canMove (k : Cursor) (c : Char) (r : List Char) (hr : k.rest = c :: r) (h : k.canMove = true) :
    k.Moved k.bump [c] := by
  have hfit := (canMove_iff k c r hr).1 h
  have hbump : k.bump = ⟨r, ⟨k.offset.toNat + c.utf8Size, hfit⟩, if c = '\n' then k.line + 1 else k.line⟩ := by
    simp [bump, hr, hfit]
  refine ⟨by simp [hbump, hr], by simp [hbump, encode], ?_⟩
  by_cases hc : c = '\n' <;> simp [hbump, hc]

/-- a cursor with room moves over the next character -/
theorem moved_bump (k : Cursor) (c : Char) (r : List Char) (hr : k.rest = c :: r) (h : k.HasRoom) :
    k.canMove = true ∧ k.Moved k.bump [c] := by
  have hfit : k.canMove = true := by
    rw [canMove_iff k c r hr]
    rw [HasRoom, hr, encode_cons, List.length_append, String.length_utf8EncodeChar] at h
    omega
  exact ⟨hfit, moved_of_canMove k c r hr hfit⟩

theorem rest_bump (k : Cursor) (c : Char) (r : List Char) (hr : k.rest = c :: r) (h : k.Moved k.bump [c]) :
    k.bump.rest = r := (List.cons.inj (hr.symm.trans h.rest)).2.symm

theorem isSeparator_of_mem_word (k : Cursor) (c : Char) (h : c ∈ k.word) : isSeparator c = false := by
  simpa using List.all_eq_true.1 List.all_takeWhile c h

/-- within a word, the word goes on behind the next character -/
theorem word_of_not_separator (k : Cursor) (c : Char) (r : List Char) (hr : k.rest = c :: r)
    (hs : ¬ isSeparator c = true) (h : k.Moved k.bump [c]) : k.word = [c] ++ k.bump.word := by
  rw [word, word, hr, rest_bump k c r hr h, List.takeWhile_cons_of_pos (by simpa using hs)]
  rfl

theorem line_feed_notMem_word (k : Cursor) : '\n' ∉ k.word := fun h =>
  absurd (k.isSeparator_of_mem_word '\n' h) (by decide)

/-- a cursor that comes to the end of its word has moved over the word -/
theorem moved_of_afterWord (k k' : Cursor) (h : k.afterWord? = some k') :
    k.Moved k' k.word ∧ ∀ c ∈ k'.rest.head?, isSeparator c = true := by
  fun_induction afterWord? k with
  | case1 k hr =>
    cases h
    refine ⟨?_, by simp [hr]⟩
    rw [word, hr]
    exact moved_nil _
  | case2 k c r hr hs =>
    cases h
    refine ⟨?_, by simpa [hr] using hs⟩
    rw [word, hr, List.takeWhile_cons_of_neg (by simp [hs])]
    exact moved_nil _
  | case3 k c r hr hs hm ih =>
    have hb := moved_of_canMove k c r hr hm
    obtain ⟨hmoved, hhead⟩ := ih h
    rw [word_of_not_separator k c r hr hs hb]
    exact ⟨hb.trans _ _ _ _ _ hmoved, hhead⟩
  | case4 => cases h

/-- a cursor with room comes to the end of its word -/
theorem moved_afterWord (k : Cursor) (h : k.HasRoom) :
    ∃ k', k.afterWord? = some k' ∧ k.Moved k' k.word ∧ ∀ c ∈ k'.rest.head?, isSeparator c = true := by
  have hex : ∃ k', k.afterWord? = some k' := by
    fun_induction afterWord? k with
    | case1 k hr => exact ⟨k, rfl⟩
    | case2 k c r hr hs => exact ⟨k, rfl⟩
    | case3 k c r hr hs hm ih => exact ih ((moved_of_canMove k c r hr hm).hasRoom _ _ _ h)
    | case4 k c r hr hs hm => exact absurd (moved_bump k c r hr h).1 hm
  obtain ⟨k', hk'⟩ := hex
  exact ⟨k', hk', moved_of_afterWord k k' hk'⟩

end Cursor

/-! ## The lexer -/

namespace Lexer

/-- the part of the text that a lexer has still to read -/
def scope (lx : Lexer) : List Char :=
  if lx.finished then []
  else if lx.atLineStart then lx.mode.portion lx.cursor.rest
  else lx.mode.portionWithin lx.cursor.rest

/-- the tokens are laid out over what the lexer has still to read -/
def Lays (lx : Lexer) (ts : List Token) : Prop := Layout lx.cursor.offset.toNat lx.cursor.line lx.scope ts

theorem scope_of_finished (lx : Lexer) (h : lx.finished = true) : lx.scope = [] := if_pos h

theorem scope_of_terminator (lx : Lexer) (h : lx.atTerminator = true) : lx.scope = [] := by
  obtain ⟨hstart, hends⟩ := Bool.and_eq_true_iff.1 h
  rw [scope, hstart, if_pos rfl, InputMode.portion_eq]
  split
  · rfl
  · exact if_pos hends

/-- past the terminator line, what is read does not depend on where the lexer stands in its line -/
theorem scope_of_not_terminator (lx : Lexer) (h : ¬ lx.finished = true) (ht : ¬ lx.atTerminator = true) :
    lx.scope = lx.mode.portionWithin lx.cursor.rest := by
  rw [scope, if_neg h]
  split
  · next hstart =>
    rw [InputMode.portion_eq]
    exact if_neg fun hends => ht (Bool.and_eq_true_iff.2 ⟨hstart, hends⟩)
  · rfl

/-- what a lexer with room answers: the end when only separators are left, or the next token of the layout -/
theorem next_cases (lx : Lexer) (hroom : lx.cursor.HasRoom) :
    (∃ after, lx.next = .finished after ∧ after.finished = true ∧ lx.Lays []) ∨
      ∃ t after, lx.next = .token t after ∧ after.cursor.HasRoom ∧ ∀ ts, after.Lays ts → lx.Lays (t :: ts) := by
  fun_induction next lx with
  | case1 lx hfin =>
    refine Or.inl ⟨lx, rfl, hfin, ?_⟩
    rw [Lays, scope_of_finished lx hfin]
    exact .nil _ _
  | case2 lx hopen hterm =>
    refine Or.inl ⟨lx.finish, rfl, rfl, ?_⟩
    rw [Lays, scope_of_terminator lx hterm]
    exact .nil _ _
  | case3 lx hopen hterm hr =>
    refine Or.inl ⟨lx.finish, rfl, rfl, ?_⟩
    rw [Lays, scope_of_not_terminator lx hopen hterm, hr, InputMode.portionWithin_nil]
    exact .nil _ _
  | case4 lx hopen hterm c r hr hs hm ih =>
    obtain ⟨-, hb⟩ := Cursor.moved_bump lx.cursor c r hr hroom
    -- the separator is passed over, and the layout of what follows is one of it all
    have hpass : ∀ ts, Lays ⟨lx.mode, lx.cursor.bump, c == '\n', false⟩ ts → lx.Lays ts := by
      intro ts h
      have hrest := Cursor.rest_bump lx.cursor c r hr hb
      rw [Lays, scope_of_not_terminator lx hopen hterm, hr, InputMode.portionWithin_cons]
      refine .gap _ _ c _ ts hs ?_
      have hoff : lx.cursor.bump.offset.toNat = lx.cursor.offset.toNat + c.utf8Size := by simp [hb.offset, encode]
      have hline : lx.cursor.bump.line = if c = '\n' then lx.cursor.line + 1 else lx.cursor.line := by
        by_cases hc : c = '\n' <;> simp [hb.line, hc]
      rw [← hoff, ← hline]
      simpa [Lays, scope, hrest] using h
    rcases ih (hb.hasRoom _ _ _ hroom) with ⟨after, hnext, hfin, hlays⟩ | ⟨t, after, hnext, hafter, hlays⟩
    · exact Or.inl ⟨after, hnext, hfin, hpass [] hlays⟩
    · exact Or.inr ⟨t, after, hnext, hafter, fun ts h => hpass _ (hlays ts h)⟩
  | case5 lx hopen hterm c r hr hs hm => exact absurd (Cursor.moved_bump lx.cursor c r hr hroom).1 hm
  | case6 lx hopen hterm c r hr hs hk =>
    obtain ⟨k, hk', -⟩ := Cursor.moved_afterWord lx.cursor hroom
    rw [hk] at hk'
    cases hk'
  | case7 lx hopen hterm c r hr hs k hk =>
    obtain ⟨k', hk', hmoved, hhead⟩ := Cursor.moved_afterWord lx.cursor hroom
    rw [hk] at hk'
    cases hk'
    have hsep := lx.cursor.isSeparator_of_mem_word
    have hlf := lx.cursor.line_feed_notMem_word
    refine Or.inr ⟨_, _, rfl, hmoved.hasRoom _ _ _ hroom, fun ts h => ?_⟩
    rw [Lays, scope_of_not_terminator lx hopen hterm, hmoved.rest, InputMode.portionWithin_append _ _ _ hlf]
    have hline : k.line = lx.cursor.line := by rw [hmoved.line, List.count_eq_zero_of_not_mem hlf, Nat.add_zero]
    refine .word _ _ _ _ _ ts ?_ hsep ?_ ?_ ?_
    · rw [Cursor.word, hr, List.takeWhile_cons_of_pos (by simpa using hs)]
      exact List.cons_ne_nil _ _
    · intro d hd
      cases hrest : k.rest with
      | nil => simp [hrest, InputMode.portionWithin_nil] at hd
      | cons e v =>
        rw [hrest, InputMode.portionWithin_cons] at hd
        exact hhead d (by simpa [hrest] using hd)
    · have hle : lx.cursor.offset.toNat ≤ k.offset.toNat := by rw [hmoved.offset]; omega
      rw [Span.between_of_le _ _ _ hle]
      exact ⟨rfl, rfl, rfl, hmoved.offset⟩
    · rw [← hmoved.offset, ← hline]
      exact h

/-! ## All tokens -/

theorem collect_of_stalled (acc : Array Token) (lx : Lexer) (h : lx.next = .stalled) : lx.collect acc = acc.toList := by
  rw [collect]
  split
  · next h' => cases h.symm.trans h'
  · rfl
  · rfl

theorem collect_eq (acc : Array Token) (lx : Lexer) : lx.collect acc = acc.toList ++ lx.tokens := by
  induction hlen : lx.cursor.rest.length using Nat.strong_induction_on generalizing acc lx with
  | _ m ih =>
    cases hnext : lx.next with
    | token t after =>
      have hlt := length_next lx after t hnext
      have hafter := ih after.cursor.rest.length (by omega)
      rw [tokens, collect_of_token acc _ _ _ hnext, collect_of_token #[] _ _ _ hnext, hafter _ after rfl,
        hafter _ after rfl]
      simp
    | finished after => simp [tokens, collect_of_finished _ _ _ hnext]
    | stalled => simp [tokens, collect_of_stalled _ _ hnext]

theorem tokens_of_token (lx after : Lexer) (t : Token) (h : lx.next = .token t after) :
    lx.tokens = t :: after.tokens := by
  rw [tokens, collect_of_token _ _ _ _ h, collect_eq]
  rfl

theorem tokens_of_finished (lx after : Lexer) (h : lx.next = .finished after) : lx.tokens = [] :=
  collect_of_finished _ _ _ h

/-- the tokens of a lexer with room are laid out over what it has still to read -/
theorem lays_tokens (lx : Lexer) (hroom : lx.cursor.HasRoom) : lx.Lays lx.tokens := by
  induction hlen : lx.cursor.rest.length using Nat.strong_induction_on generalizing lx with
  | _ m ih =>
    rcases next_cases lx hroom with ⟨after, hnext, -, hlays⟩ | ⟨t, after, hnext, hafter, hlays⟩
    · rw [tokens_of_finished lx after hnext]
      exact hlays
    · rw [tokens_of_token lx after t hnext]
      have hlt := length_next lx after t hnext
      exact hlays _ (ih after.cursor.rest.length (by omega) after hafter rfl)

/-! ## One call after another -/

theorem finished_of_next (lx after : Lexer) (h : lx.next = .finished after) : after.finished = true := by
  fun_induction next lx with
  | case1 lx hfin => cases h; exact hfin
  | case2 => cases h; rfl
  | case3 => cases h; rfl
  | case4 lx hopen hterm c r hr hs hm ih => exact ih h
  | case5 => cases h
  | case6 => cases h
  | case7 => cases h

theorem next_of_finished (lx : Lexer) (h : lx.finished = true) : lx.next = .finished lx := by
  rw [next, if_pos h]

/-- a call hands out the first of the tokens to come and leaves the others -/
theorem take_eq (lx : Lexer) : lx.take.1 = lx.tokens.head? ∧ lx.take.2.tokens = lx.tokens.tail := by
  rw [take]
  cases hnext : lx.next with
  | token t after => simp [tokens_of_token lx after t hnext]
  | finished after =>
    have hafter := tokens_of_finished after after (next_of_finished after (finished_of_next lx after hnext))
    simp [tokens_of_finished lx after hnext, hafter]
  | stalled => simp [tokens, collect_of_stalled _ _ hnext]

/-- the answers to a number of calls, and the lexer after them -/
def calls : ℕ → Lexer → List (Option Token) × Lexer
  | 0, lx => ([], lx)
  | k + 1, lx => (lx.take.1 :: (calls k lx.take.2).1, (calls k lx.take.2).2)

/-- call by call the tokens are handed out in order, then none for ever; and what was not yet asked for is left -/
theorem calls_eq (k : ℕ) (lx : Lexer) :
    (calls k lx).1 = (List.range k).map (fun i => lx.tokens[i]?) ∧ (calls k lx).2.tokens = lx.tokens.drop k := by
  induction k generalizing lx with
  | zero => exact ⟨rfl, rfl⟩
  | succ k ih =>
    obtain ⟨hhead, htail⟩ := take_eq lx
    obtain ⟨hanswers, hleft⟩ := ih lx.take.2
    rw [htail] at hanswers hleft
    refine ⟨?_, ?_⟩
    · rw [calls, hanswers, hhead, List.range_succ_eq_map]
      simp [List.head?_eq_getElem?]
    · rw [calls, hleft, List.drop_tail]

/-- a lexer that has finished or has room always answers -/
theorem calls_next_ne_stalled (k : ℕ) (lx : Lexer) (h : lx.finished = true ∨ lx.cursor.HasRoom) :
    (calls k lx).2.next ≠ .stalled := by
  induction k generalizing lx with
  | zero =>
    rcases h with hfin | hroom
    · simp [calls, next_of_finished lx hfin]
    · rcases next_cases lx hroom with ⟨after, hnext, -⟩ | ⟨t, after, hnext, -⟩ <;> simp [calls, hnext]
  | succ k ih =>
    refine ih lx.take.2 ?_
    rcases h with hfin | hroom
    · simp [take, next_of_finished lx hfin, hfin]
    · rcases next_cases lx hroom with ⟨after, hnext, hfin, -⟩ | ⟨t, after, hnext, hafter, -⟩
      · simp [take, hnext, hfin]
      · simp [take, hnext, hafter]

end Lexer

/-! ## The tokens of a text -/

theorem hasRoom_start (text : String) (mode : InputMode) (h : text.utf8ByteSize ≤ ByteOffset.last) :
    (Lexer.ofText text mode).cursor.HasRoom := by
  rw [Cursor.HasRoom, Lexer.ofText, Cursor.start]
  rw [← length_encode] at h
  simpa [ByteOffset.zero] using h

/-- the tokens of a text are laid out over the part of it that is read -/
theorem layout_tokenize (text : String) (mode : InputMode) (h : text.utf8ByteSize ≤ ByteOffset.last) :
    Layout 0 1 (mode.portion text.toList) (tokenize text mode) :=
  Lexer.lays_tokens _ (hasRoom_start text mode h)

theorem Layout.lexemes (o n : ℕ) (l : List Char) (ts : List Token) (h : Layout o n l ts) :
    ts.map Token.lexeme = (words l).map String.ofList := by
  induction h with
  | nil => rfl
  | gap o n c l ts hc _ ih => rw [ih, words_cons_separator c l hc]
  | word o n w l t ts hw hsep hl ht _ ih =>
    rw [List.map_cons, ih, ht.lexeme, words_append_word w l hw hsep hl, List.map_cons]

/-- the lexemes of a text are the words of the part of it that is read -/
theorem lexemes_tokenize (text : String) (mode : InputMode) (h : text.utf8ByteSize ≤ ByteOffset.last) :
    (tokenize text mode).map Token.lexeme = (words (mode.portion text.toList)).map String.ofList :=
  (layout_tokenize text mode h).lexemes

end PolishCalc
