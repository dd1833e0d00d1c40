/-
Programs written out as the text that they are read from.

`Program.source` writes each action on a line of its own and puts a space between the words of a line: the marker, the
name, and the expression in prefix form. The words are the lexemes again when the text is read, if each of them is one
word. Numerals, markers and operator symbols are, so it is up to the names (`Lexeme.IsClean`).

- `Program.spelling_words`: the words spell the program;
- `words_source`, `portion_source`: the words of the text are the words that were written, and no line of it is a
  terminator line;
- `Program.Spelling.names`: conversely, the names of a program are among the lexemes that spell it;
- `ofText_source_iff`: so a program is read back from its text exactly when its names are clean and its operators nest
  no deeper than the parser allows.
-/
import Mathlib.Tactic
import PolishCalc.Proofs.Program.Grammar
import PolishCalc.Proofs.Token.Layout

namespace PolishCalc

open Lexeme Text

/-! ## Words and names of a program -/

/-- the words of the expression, an operator before its operands -/
def Expr.words : Expr → List String
  | const v => [Decimal.ofInt32 v]
  | var name => [name]
  | unary op e => op.symbol :: e.words
  | binary op l r => op.symbol :: (l.words ++ r.words)

def Action.words : Action → List String
  | assign name e => assignMarker :: name :: e.words
  | print e => printMarker :: e.words

/-- the program as text: one action on a line, its words with a space between them -/
def Program.source (p : Program) : String := "\n".intercalate (p.map fun a => " ".intercalate a.words)

/-- the variables that the expression reads, from left to right -/
def Expr.variables : Expr → List String
  | const _ => []
  | var name => [name]
  | unary _ e => e.variables
  | binary _ l r => l.variables ++ r.variables

/-- the name that the action assigns to, if any, and the variables that it reads -/
def Action.names : Action → List String
  | assign name e => name :: e.variables
  | print e => e.variables

def Program.names (p : Program) : List String := p.flatMap Action.names

/-! ## The words spell the program -/

theorem Expr.spelling_words (e : Expr) (h : ∀ x ∈ e.variables, IsName x) : e.Spelling e.words := by
  induction e with
  | const v => exact .const v _ (Decimal.denotes_ofInt32 v)
  | var name => exact .var name (h name List.mem_cons_self)
  | unary op e ih => exact .unary op e _ (ih h)
  | binary op l r ihl ihr =>
    obtain ⟨hl, hr⟩ := List.forall_mem_append.1 h
    exact .binary op l r _ _ (ihl hl) (ihr hr)

theorem Action.spelling_words (a : Action) (h : ∀ x ∈ a.names, IsName x) : a.Spelling a.words := by
  cases a with
  | assign name e =>
    obtain ⟨hn, he⟩ := List.forall_mem_cons.1 h
    exact .assign name e _ hn (e.spelling_words he)
  | print e => exact .print e _ (e.spelling_words h)

theorem Program.spelling_words (p : Program) (h : ∀ x ∈ p.names, IsName x) :
    p.Spelling (p.flatMap Action.words) := by
  induction p with
  | nil => exact .nil
  | cons a p ih =>
    obtain ⟨ha, hp⟩ := List.forall_mem_append.1 h
    exact .cons a p _ _ (a.spelling_words ha) (ih hp)

/-! ## Each word is one word of the text -/

theorem isWord_of_mem_reserved (s : String) (h : s ∈ reserved) : IsWord s := by
  have all : ∀ s ∈ reserved, IsWord s := by decide
  exact all s h

theorem Expr.isWord_words (e : Expr) (h : ∀ x ∈ e.variables, IsClean x) : ∀ s ∈ e.words, IsWord s := by
  induction e with
  | const v => exact List.forall_mem_singleton.2 (isWord_ofInt32 v)
  | var name => exact List.forall_mem_singleton.2 (h name List.mem_cons_self).isWord
  | unary op e ih => exact List.forall_mem_cons.2 ⟨isWord_of_mem_reserved _ (symbol_mem_reserved op), ih h⟩
  | binary op l r ihl ihr =>
    obtain ⟨hl, hr⟩ := List.forall_mem_append.1 h
    exact List.forall_mem_cons.2
      ⟨isWord_of_mem_reserved _ (symbol_mem_reserved' op), List.forall_mem_append.2 ⟨ihl hl, ihr hr⟩⟩

theorem Action.isWord_words (a : Action) (h : ∀ x ∈ a.names, IsClean x) : ∀ s ∈ a.words, IsWord s := by
  cases a with
  | assign name e =>
    obtain ⟨hn, he⟩ := List.forall_mem_cons.1 h
    exact List.forall_mem_cons.2
      ⟨isWord_of_mem_reserved _ (by decide), List.forall_mem_cons.2 ⟨hn.isWord, e.isWord_words he⟩⟩
  | print e => exact List.forall_mem_cons.2 ⟨isWord_of_mem_reserved _ (by decide), e.isWord_words h⟩

/-! ## The text and its words -/

/-- words with a space between them are cut there and nowhere else -/
theorem words_of_isWord (ws : List String) (h : ∀ s ∈ ws, IsWord s) :
    words (" ".intercalate ws).toList = ws.map String.toList := by
  have hone : ∀ s ∈ ws, words s.toList = [s.toList] := fun s hs => words_eq_singleton _ (h s hs).1 (h s hs).2
  calc words (" ".intercalate ws).toList = words ([' '].intercalate (ws.map String.toList)) := by
        rw [String.toList_intercalate]
        rfl
    _ = ws.flatMap fun s => words s.toList := by rw [words_intercalate ' ' rfl, List.flatMap_map]
    _ = ws.flatMap fun s => [s.toList] := List.flatMap_congr hone
    _ = ws.map String.toList := List.map_eq_flatMap.symm

namespace Program

theorem toList_source (p : Program) :
    p.source.toList = ['\n'].intercalate (p.map fun a => (" ".intercalate a.words).toList) := by
  rw [source, String.toList_intercalate, List.map_map]
  rfl

/-- the words of the text are the words that were written -/
theorem words_source (p : Program) (h : ∀ a ∈ p, ∀ s ∈ a.words, IsWord s) :
    Text.words p.source.toList = (p.flatMap Action.words).map String.toList := by
  calc Text.words p.source.toList
    _ = p.flatMap fun a => Text.words (" ".intercalate a.words).toList := by
        rw [toList_source, words_intercalate '\n' rfl, List.flatMap_map]
    _ = p.flatMap fun a => a.words.map String.toList := List.flatMap_congr fun a ha => words_of_isWord a.words (h a ha)
    _ = (p.flatMap Action.words).map String.toList := List.map_flatMap.symm

end Program

/-! ## No line of the text is a terminator line -/

theorem exists_intercalate_cons (sep s : String) (ws : List String) :
    ∃ l, (sep.intercalate (s :: ws)).toList = s.toList ++ l := by
  cases ws with
  | nil => exact ⟨[], by simp⟩
  | cons w ws => exact ⟨_, by rw [String.intercalate_cons_cons, String.toList_append, String.toList_append,
      List.append_assoc]⟩

/-- the line of an action starts with a marker -/
theorem Action.isTerminatorLine_line (a : Action) : isTerminatorLine (" ".intercalate a.words).toList = false := by
  cases a with
  | assign name e =>
    obtain ⟨l, hl⟩ := exists_intercalate_cons " " assignMarker (name :: e.words)
    rw [words, hl]
    exact isTerminatorLine_cons '=' l (by decide) (by decide)
  | print e =>
    obtain ⟨l, hl⟩ := exists_intercalate_cons " " printMarker e.words
    rw [words, hl]
    exact isTerminatorLine_cons '@' l (by decide) (by decide)

theorem Action.not_mem_line (a : Action) (h : ∀ s ∈ a.words, IsWord s) :
    '\n' ∉ (" ".intercalate a.words).toList := by
  intro hmem
  rw [String.toList_intercalate] at hmem
  rcases mem_intercalate ' ' '\n' _ hmem with hspace | ⟨l, hl, hlf⟩
  · exact absurd hspace (by decide)
  · obtain ⟨s, hs, rfl⟩ := List.mem_map.1 hl
    exact absurd ((h s hs).2 '\n' hlf) (by decide)

/-- all of the text is read, in either mode -/
theorem Program.portion_source (p : Program) (mode : InputMode) (h : ∀ a ∈ p, ∀ s ∈ a.words, IsWord s) :
    mode.portion p.source.toList = p.source.toList := by
  cases mode with
  | file => rfl
  | interactive =>
    refine beforeTerminator_of_forall _ fun q hq => ?_
    rw [toList_source] at hq
    by_cases hp : p = []
    · subst hp
      obtain rfl := List.mem_singleton.1 hq
      rfl
    · rw [List.splitOn_intercalate '\n' ?_ (by simpa using hp)] at hq
      · obtain ⟨a, -, rfl⟩ := List.mem_map.1 hq
        exact a.isTerminatorLine_line
      · intro l hl
        obtain ⟨a, ha, rfl⟩ := List.mem_map.1 hl
        exact a.not_mem_line (h a ha)

/-- the lexemes of the text are the words that were written -/
theorem Program.lexemes_source (p : Program) (mode : InputMode) (hsize : p.source.utf8ByteSize ≤ ByteOffset.last)
    (h : ∀ a ∈ p, ∀ s ∈ a.words, IsWord s) :
    (tokenize p.source mode).map Token.lexeme = p.flatMap Action.words := by
  rw [lexemes_tokenize _ _ hsize, p.portion_source mode h, p.words_source h, List.map_map]
  simp only [Function.comp_def, String.ofList_toList, List.map_id']

/-! ## The names of what is spelled -/

theorem Expr.Spelling.variables (e : Expr) (w : List String) (h : e.Spelling w) :
    ∀ x ∈ e.variables, IsName x ∧ x ∈ w := by
  induction h with
  | const v s _ => simp [Expr.variables]
  | var name hn => simpa [Expr.variables] using hn
  | unary op e u _ ih => exact fun x hx => ⟨(ih x hx).1, List.mem_cons_of_mem _ (ih x hx).2⟩
  | binary op l r u w _ _ ihl ihr =>
    refine List.forall_mem_append.2 ⟨fun x hx => ⟨(ihl x hx).1, ?_⟩, fun x hx => ⟨(ihr x hx).1, ?_⟩⟩
    · exact List.mem_cons_of_mem _ (List.mem_append_left w (ihl x hx).2)
    · exact List.mem_cons_of_mem _ (List.mem_append_right u (ihr x hx).2)

theorem Action.Spelling.names (a : Action) (w : List String) (h : a.Spelling w) :
    ∀ x ∈ a.names, IsName x ∧ x ∈ w := by
  cases h with
  | assign name e u hn he =>
    refine List.forall_mem_cons.2 ⟨⟨hn, by simp⟩, fun x hx => ?_⟩
    obtain ⟨hx, hmem⟩ := he.variables e u x hx
    exact ⟨hx, List.mem_cons_of_mem _ (List.mem_cons_of_mem _ hmem)⟩
  | print e u he =>
    intro x hx
    obtain ⟨hx, hmem⟩ := he.variables e u x hx
    exact ⟨hx, List.mem_cons_of_mem _ hmem⟩

theorem Program.Spelling.names (p : Program) (w : List String) (h : p.Spelling w) :
    ∀ x ∈ p.names, IsName x ∧ x ∈ w := by
  induction h with
  | nil => simp [Program.names]
  | cons a p u w ha _ ih =>
    refine List.forall_mem_append.2 ⟨fun x hx => ?_, fun x hx => ⟨(ih x hx).1, List.mem_append_right u (ih x hx).2⟩⟩
    obtain ⟨hx, hmem⟩ := ha.names a u x hx
    exact ⟨hx, List.mem_append_left w hmem⟩

/-- the names of a program that was read from a text are clean -/
theorem isClean_names_of_ofText (text : String) (mode : InputMode) (p : Program)
    (h : Program.ofText text mode = .ok p) : ∀ x ∈ p.names, IsClean x := by
  obtain ⟨hs, -⟩ := (ofTokens_eq_ok_iff _ _ p).1 h
  intro x hx
  obtain ⟨hname, hmem⟩ := hs.names p _ x hx
  obtain ⟨t, ht, rfl⟩ := List.mem_map.1 hmem
  exact ⟨hname, (isWord_of_mem_tokenize text mode t ht).2⟩

/-! ## Round trip -/

/-- **A program is read back from its text** in either mode, as far as the offsets fit, exactly when each of its names
starts with an ASCII letter and holds no separator, and its operators nest no deeper than the parser allows. -/
theorem ofText_source_iff (p : Program) (mode : InputMode) (hsize : p.source.utf8ByteSize ≤ ByteOffset.last) :
    Program.ofText p.source mode = .ok p ↔
      (∀ x ∈ p.names, IsClean x) ∧ ∀ a ∈ p, a.expr.nesting ≤ Parser.defaultNesting := by
  constructor
  · intro h
    exact ⟨isClean_names_of_ofText _ _ p h, ((ofTokens_eq_ok_iff _ _ p).1 h).2⟩
  · rintro ⟨hclean, hle⟩
    have hnames : ∀ a ∈ p, ∀ x ∈ a.names, IsClean x := fun a ha x hx => hclean x (List.mem_flatMap.2 ⟨a, ha, hx⟩)
    refine (ofTokens_eq_ok_iff _ _ p).2 ⟨?_, hle⟩
    rw [p.lexemes_source mode hsize fun a ha => a.isWord_words (hnames a ha)]
    exact p.spelling_words fun x hx => (hclean x hx).1

/-- a name goes on behind its letter, and a numeral has a minus sign where an operator could stand; a name with a line
feed in it is not read back, although each part of the text is read -/
theorem ofText_source_parts :
    "= xé - -5 xé\n@ xé".utf8ByteSize ≤ ByteOffset.last ∧ "@ x\n@ 1".utf8ByteSize ≤ ByteOffset.last ∧
    Program.ofText "= xé - -5 xé\n@ xé" .interactive =
      .ok [.assign "xé" (.binary .sub (.const (-5)) (.var "xé")), .print (.var "xé")] ∧
    Program.ofText "@ x\n@ 1" .file ≠ .ok [.print (.var "x\n@ 1")] := by
  have hclean : IsClean "xé" := ⟨(isIdentifier_iff _).1 (by decide), (show IsWord "xé" by decide).2⟩
  have hsource : Program.source [.assign "xé" (.binary .sub (.const (-5)) (.var "xé")), .print (.var "xé")] =
      "= xé - -5 xé\n@ xé" := by decide +kernel
  have hbroken : Program.source [.print (.var "x\n@ 1")] = "@ x\n@ 1" := by decide +kernel
  have hsize : "= xé - -5 xé\n@ xé".utf8ByteSize ≤ ByteOffset.last := by decide
  have hsize' : "@ x\n@ 1".utf8ByteSize ≤ ByteOffset.last := by decide
  have hread := (ofText_source_iff [.assign "xé" (.binary .sub (.const (-5)) (.var "xé")), .print (.var "xé")]
    .interactive (hsource ▸ hsize)).2 ⟨by simpa [Program.names, Action.names, Expr.variables] using hclean, by decide⟩
  have hlost : Program.ofText (Program.source [.print (.var "x\n@ 1")]) .file ≠ .ok [.print (.var "x\n@ 1")] := by
    intro h
    obtain ⟨hnames, -⟩ := (ofText_source_iff [.print (.var "x\n@ 1")] .file (hbroken ▸ hsize')).1 h
    exact absurd ((hnames "x\n@ 1" List.mem_cons_self).2 '\n' (by decide)) (by decide)
  rw [hsource] at hread
  rw [hbroken] at hlost
  exact ⟨hsize, hsize', hread, hlost⟩

end PolishCalc
