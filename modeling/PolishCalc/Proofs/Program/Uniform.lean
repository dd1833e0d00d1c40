/-
The parser looks at lexemes, never at places.

Two runs of a parser on tokens that are alike one by one agree (`Agree`): they come to the same value, or to errors that
differ in their places only, and leave tokens that are alike. A parser of which this is true for any relation between
places is `Uniform`. Sequencing keeps it, so it holds of expressions, actions and programs: a parser that looked at the
line of a token or at its offsets would break it.

- `exprWithin_uniform`, `action_uniform`, `actionsAfter_uniform`: the parsers are uniform;
- `ofTokens_alike`: so tokens that are alike spell the same program, or fail alike;
- `lexemes_oneLine`: a text keeps its lexemes when its lines are put on one line;
- `ofText_of_lexemes`: what is parsed depends on the lexemes of a text alone.
-/
import Mathlib.Tactic
import PolishCalc.Proofs.Program.Diagnosis
import PolishCalc.Proofs.Token.Alike

namespace PolishCalc

open Lexeme Text PolishCalc.Parser

/-! ## Errors that differ in their places -/

/-- two errors that differ in their places only; they both have one or none, and the places are in the relation `S` -/
structure ParseError.Alike (S : Span → Span → Prop) (e e' : ParseError) : Prop where
  kind : e.kind = e'.kind
  expected : e.expected = e'.expected
  found : e.found = e'.found
  span : Option.Rel S e.span e'.span

theorem Token.Alike.atToken (S : Span → Span → Prop) (t u : Token) (h : t.Alike S u) (kind : ParseError.Kind)
    (expected : List String) :
    (ParseError.atToken kind t expected).Alike S (ParseError.atToken kind u expected) :=
  ⟨rfl, rfl, congrArg some h.lexeme, .some h.span⟩

theorem ParseError.alike_prematureEnd (S : Span → Span → Prop) (labels : List String) :
    (ParseError.prematureEnd labels).Alike S (ParseError.prematureEnd labels) :=
  ⟨rfl, rfl, rfl, .none⟩

namespace Parser

variable {α β : Type}

/-! ## Runs that agree -/

/-- two runs come to the same value, or to errors that are alike, and leave tokens that are alike -/
inductive Agree (S : Span → Span → Prop) :
    EStateM.Result ParseError (List Token) α → EStateM.Result ParseError (List Token) α → Prop
  | ok (a : α) (ts us : List Token) (h : List.Forall₂ (Token.Alike S) ts us) : Agree S (.ok a ts) (.ok a us)
  | error (e e' : ParseError) (ts us : List Token) (h : List.Forall₂ (Token.Alike S) ts us) (he : e.Alike S e') :
      Agree S (.error e ts) (.error e' us)

/-- on tokens that are alike, the runs of the parser agree -/
def Uniform (S : Span → Span → Prop) (p : Parser α) : Prop :=
  ∀ ts us, List.Forall₂ (Token.Alike S) ts us → Agree S (p ts) (p us)

section

variable (S : Span → Span → Prop)

theorem uniform_pure (a : α) : Uniform S (pure a : Parser α) := fun ts us h => .ok a ts us h

theorem Uniform.of_ok (p : Parser α) (ts us mid : List Token) (a : α) (hp : Uniform S p)
    (h : List.Forall₂ (Token.Alike S) ts us) (hok : p ts = .ok a mid) :
    ∃ mid', p us = .ok a mid' ∧ List.Forall₂ (Token.Alike S) mid mid' := by
  have hrun := hp ts us h
  rw [hok] at hrun
  generalize p us = r at hrun
  cases hrun with
  | ok _ _ mid' hmid => exact ⟨mid', rfl, hmid⟩

theorem Uniform.of_error (p : Parser α) (ts us mid : List Token) (e : ParseError) (hp : Uniform S p)
    (h : List.Forall₂ (Token.Alike S) ts us) (herr : p ts = .error e mid) :
    ∃ e' mid', p us = .error e' mid' ∧ e.Alike S e' ∧ List.Forall₂ (Token.Alike S) mid mid' := by
  have hrun := hp ts us h
  rw [herr] at hrun
  generalize p us = r at hrun
  cases hrun with
  | error _ e' _ mid' hmid he => exact ⟨e', mid', rfl, he, hmid⟩

theorem Uniform.bind (p : Parser α) (f : α → Parser β) (hp : Uniform S p) (hf : ∀ a, Uniform S (f a)) :
    Uniform S (p >>= f) := by
  intro ts us h
  cases hrun : p ts with
  | ok a mid =>
    obtain ⟨mid', hrun', hmid⟩ := hp.of_ok S p ts us mid a h hrun
    rw [bind_of_ok _ _ _ _ _ hrun, bind_of_ok _ _ _ _ _ hrun']
    exact hf a mid mid' hmid
  | error e mid =>
    obtain ⟨e', mid', hrun', he, hmid⟩ := hp.of_error S p ts us mid e h hrun
    rw [bind_of_error _ _ _ _ _ hrun, bind_of_error _ _ _ _ _ hrun']
    exact .error e e' mid mid' hmid he

/-! ## The parsers are uniform -/

theorem exprWithin_uniform (limit room : ℕ) : Uniform S (exprWithin limit room) := by
  -- over the room, as the parser recurs; the second token is of the class of the first, since their lexemes are equal
  induction room using Nat.strong_induction_on with
  | _ room ih =>
    intro ts us h
    cases h with
    | nil =>
      rw [exprWithin_nil]
      exact .error _ _ _ _ .nil (ParseError.alike_prematureEnd S _)
    | @cons t u ts us ht hts =>
      have hlex := ht.lexeme
      rcases class_cases t.lexeme with hm | ⟨op, ho⟩ | ⟨op, ho⟩ | hn | ⟨v, hv⟩ | ⟨hr, hi, hl⟩
      · rw [exprWithin_marker _ _ t _ hm, exprWithin_marker _ _ u _ (hlex ▸ hm)]
        exact .error _ _ _ _ (.cons ht hts) (ht.atToken S t u _ _)
      · cases room with
        | zero =>
          rw [exprWithin_unary_zero _ op t _ ho, exprWithin_unary_zero _ op u _ (hlex ▸ ho)]
          exact .error _ _ _ _ hts (ht.atToken S t u _ _)
        | succ room =>
          rw [exprWithin_unary _ _ op t _ ho, exprWithin_unary _ _ op u _ (hlex ▸ ho)]
          exact Uniform.bind S _ _ (ih room (by omega)) (fun _ => uniform_pure S _) ts us hts
      · cases room with
        | zero =>
          rw [exprWithin_binary_zero _ op t _ ho, exprWithin_binary_zero _ op u _ (hlex ▸ ho)]
          exact .error _ _ _ _ hts (ht.atToken S t u _ _)
        | succ room =>
          have hrec := ih room (by omega)
          rw [exprWithin_binary _ _ op t _ ho, exprWithin_binary _ _ op u _ (hlex ▸ ho)]
          exact Uniform.bind S _ _ hrec (fun _ => Uniform.bind S _ _ hrec fun _ => uniform_pure S _) ts us hts
      · rw [exprWithin_name _ _ t _ hn, exprWithin_name _ _ u _ (hlex ▸ hn), hlex]
        exact .ok _ _ _ hts
      · rw [exprWithin_literal _ _ v t _ hv, exprWithin_literal _ _ v u _ (hlex ▸ hv)]
        exact .ok _ _ _ hts
      · rw [exprWithin_illegal _ _ t _ hr hi hl, exprWithin_illegal _ _ u _ (hlex ▸ hr) (hlex ▸ hi) (hlex ▸ hl)]
        exact .error _ _ _ _ hts (ht.atToken S t u _ _)

theorem action_uniform (limit : ℕ) : Uniform S (action limit) := by
  have hexpr : ∀ f : Expr → Action, Uniform S (expr limit >>= fun e => pure (f e)) :=
    fun f => Uniform.bind S _ _ (exprWithin_uniform S limit limit) fun _ => uniform_pure S _
  intro ts us h
  cases h with
  | nil => exact .error _ _ _ _ .nil (ParseError.alike_prematureEnd S _)
  | @cons t u ts us ht hts =>
    have hlex := ht.lexeme
    by_cases ha : t.lexeme = assignMarker
    · cases hts with
      | nil =>
        rw [action_assign_nil _ t ha, action_assign_nil _ u (hlex ▸ ha)]
        exact .error _ _ _ _ .nil (ParseError.alike_prematureEnd S _)
      | @cons t' u' ts us ht' hts =>
        have hlex' := ht'.lexeme
        by_cases hn : IsName t'.lexeme
        · rw [action_assign _ t t' _ ha hn, action_assign _ u u' _ (hlex ▸ ha) (hlex' ▸ hn), hlex']
          exact hexpr _ ts us hts
        · rw [action_illegalTarget _ t t' _ ha hn, action_illegalTarget _ u u' _ (hlex ▸ ha) (hlex' ▸ hn)]
          exact .error _ _ _ _ hts (ht'.atToken S t' u' _ _)
    · by_cases hp : t.lexeme = printMarker
      · rw [action_print _ t _ hp, action_print _ u _ (hlex ▸ hp)]
        exact hexpr _ ts us hts
      · rw [action_illegal _ t _ ha hp, action_illegal _ u _ (hlex ▸ ha) (hlex ▸ hp)]
        exact .error _ _ _ _ hts (ht.atToken S t u _ _)

theorem actionsAfter_uniform (limit : ℕ) (acc : Array Action) : Uniform S (actionsAfter limit acc) := by
  intro ts us h
  fun_induction actionsAfter limit acc ts generalizing us with
  | case1 acc =>
    cases h
    rw [actionsAfter_nil]
    exact .ok _ _ _ .nil
  | case2 acc t ts a mid ha ih =>
    obtain ⟨mid', ha', hmid⟩ := (action_uniform S limit).of_ok S _ _ us mid a h ha
    rw [actionsAfter_of_ok _ _ _ _ _ ha']
    exact ih mid' hmid
  | case3 acc t ts e mid he =>
    obtain ⟨e', mid', he', halike, hmid⟩ := (action_uniform S limit).of_error S _ _ us mid e h he
    cases h with
    | cons =>
      rw [actionsAfter_of_error _ _ _ _ _ _ he']
      exact .error e e' mid mid' hmid halike

end

end Parser

/-- tokens that are alike spell the same program, or fail with errors that are alike -/
theorem ofTokens_alike (S : Span → Span → Prop) (limit : ℕ) (ts us : List Token)
    (h : List.Forall₂ (Token.Alike S) ts us) :
    (∃ p, Program.ofTokens limit ts = .ok p ∧ Program.ofTokens limit us = .ok p) ∨
      ∃ e e', Program.ofTokens limit ts = .error e ∧ Program.ofTokens limit us = .error e' ∧ e.Alike S e' := by
  have hprogram := actionsAfter_uniform S limit #[]
  cases hrun : actionsAfter limit #[] ts with
  | ok p rest =>
    obtain ⟨rest', hrun', -⟩ := hprogram.of_ok S _ ts us rest p h hrun
    exact Or.inl ⟨p, (ofTokens_eq_ok_iff_run _ _ _).2 ⟨rest, hrun⟩, (ofTokens_eq_ok_iff_run _ _ _).2 ⟨rest', hrun'⟩⟩
  | error e rest =>
    obtain ⟨e', rest', hrun', he, -⟩ := hprogram.of_error S _ ts us rest e h hrun
    exact Or.inr ⟨e, e', (ofTokens_eq_error_iff _ _ _).2 ⟨rest, hrun⟩, (ofTokens_eq_error_iff _ _ _).2 ⟨rest', hrun'⟩, he⟩

/-! ## Texts with the same lexemes -/

/-- the spans are those of the two tokens at some index -/
def Span.AtOneIndex (ts us : List Token) (s s' : Span) : Prop :=
  ∃ (i : ℕ) (t u : Token), ts[i]? = some t ∧ us[i]? = some u ∧ s = t.span ∧ s' = u.span

theorem alike_of_lexemes (ts us : List Token) (h : ts.map Token.lexeme = us.map Token.lexeme) :
    List.Forall₂ (Token.Alike (Span.AtOneIndex ts us)) ts us := by
  have hlen : ts.length = us.length := by simpa using congrArg List.length h
  refine List.forall₂_iff_get.2 ⟨hlen, fun i ht hu => ⟨?_, i, ts[i], us[i], by simp, by simp, rfl, rfl⟩⟩
  simpa [ht, hu] using congrArg (fun l => l[i]?) h

/-- the answers to two texts: the same program, or errors that differ in their places only, which are both missing or
those of the tokens at one index -/
def SameAnswer (s s' : String) (mode mode' : InputMode) : Prop :=
  (∃ p, Program.ofText s mode = .ok p ∧ Program.ofText s' mode' = .ok p) ∨
    ∃ e e', Program.ofText s mode = .error e ∧ Program.ofText s' mode' = .error e' ∧
      e.Alike (Span.AtOneIndex (tokenize s mode) (tokenize s' mode')) e'

theorem sameAnswer_of_lexemes (s s' : String) (mode mode' : InputMode)
    (h : (tokenize s mode).map Token.lexeme = (tokenize s' mode').map Token.lexeme) : SameAnswer s s' mode mode' :=
  ofTokens_alike _ _ _ _ (alike_of_lexemes _ _ h)

/-- a character, or a space in the place of a line feed -/
def onLine (c : Char) : Char := if c = '\n' then ' ' else c

/-- the text on one line, with a space for each line feed -/
def oneLine (text : String) : String := String.ofList (text.toList.map onLine)

theorem words_map_onLine (l : List Char) : words (l.map onLine) = words l := by
  have hline : ∀ p : List Char, '\n' ∉ p → p.map onLine = p := by
    intro p hp
    conv_rhs => rw [← List.map_id p]
    exact List.map_congr_left fun c hc => if_neg (ne_of_mem_of_not_mem hc hp)
  induction l using line_induction '\n' with
  | last p hp => rw [hline p hp]
  | line p l hp ih =>
    have hspace : (p ++ '\n' :: l).map onLine = p ++ ' ' :: l.map onLine := by
      rw [List.map_append, List.map_cons, hline p hp]
      rfl
    rw [hspace, words_append_separator p _ ' ' rfl, words_append_separator p l '\n' rfl, ih]

theorem size_oneLine (text : String) : (oneLine text).utf8ByteSize = text.utf8ByteSize := by
  rw [← length_encode, ← length_encode, oneLine, String.toList_ofList]
  induction text.toList with
  | nil => rfl
  | cons c l ih =>
    have hc : (onLine c).utf8Size = c.utf8Size := by
      unfold onLine
      split_ifs with hlf
      · rw [hlf]
        rfl
      · rfl
    rw [List.map_cons, encode_cons, encode_cons, List.length_append, List.length_append, ih,
      String.length_utf8EncodeChar, String.length_utf8EncodeChar, hc]

/-- line breaks are no part of the lexemes -/
theorem lexemes_oneLine (text : String) (h : text.utf8ByteSize ≤ ByteOffset.last) :
    (tokenize text .file).map Token.lexeme = (tokenize (oneLine text) .file).map Token.lexeme := by
  rw [lexemes_tokenize text .file h, lexemes_tokenize _ .file (by rwa [size_oneLine]), oneLine, String.toList_ofList]
  exact congrArg _ (words_map_onLine text.toList).symm

/-- **What is parsed depends on the lexemes alone.** Two texts with the same lexemes, in any modes and any layout, spell
the same program, or their errors are of the same kind, expect and name the same, and are placed at the tokens of one
index if they have a place. So it makes no difference where the lines of a text are broken. Of a text of 2^32 bytes or
more, on which the lexer may be stalled, only the lexemes before that count, and only these are parsed. -/
theorem ofText_of_lexemes :
    (∀ (s s' : String) (mode mode' : InputMode),
      (tokenize s mode).map Token.lexeme = (tokenize s' mode').map Token.lexeme → SameAnswer s s' mode mode') ∧
    ∀ text : String, text.utf8ByteSize ≤ ByteOffset.last → SameAnswer text (oneLine text) .file .file :=
  ⟨sameAnswer_of_lexemes, fun text h => sameAnswer_of_lexemes _ _ _ _ (lexemes_oneLine text h)⟩

/-- one program on a line and over three, with a terminator line behind; and an error on the second line -/
theorem ofText_of_lexemes_broken :
    (tokenize "@ + xé 1" .file).map Token.lexeme = (tokenize "\t@\r\n+ xé\n1\n .\n)" .interactive).map Token.lexeme ∧
    SameAnswer "@ + xé 1" "\t@\r\n+ xé\n1\n .\n)" .file .interactive ∧
    "@ !\n) 1".utf8ByteSize ≤ ByteOffset.last ∧ SameAnswer "@ !\n) 1" "@ ! ) 1" .file .file := by
  have hlexemes : (tokenize "@ + xé 1" .file).map Token.lexeme =
      (tokenize "\t@\r\n+ xé\n1\n .\n)" .interactive).map Token.lexeme := by
    rw [lexemes_tokenize _ _ (by decide), lexemes_tokenize _ _ (by decide)]
    decide
  have hsize : "@ !\n) 1".utf8ByteSize ≤ ByteOffset.last := by decide
  have hline : oneLine "@ !\n) 1" = "@ ! ) 1" := by decide
  exact ⟨hlexemes, ofText_of_lexemes.1 _ _ _ _ hlexemes, hsize, hline ▸ ofText_of_lexemes.2 _ hsize⟩

end PolishCalc
