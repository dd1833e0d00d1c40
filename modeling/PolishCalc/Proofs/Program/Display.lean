/-
The display of programs is unambiguous.

Nothing in the display is quoted: a name may hold brackets and operator symbols, a unary operator stands right in front
of its operand, and a negative numeral starts like a subtraction. But a clean name starts with a letter and holds no
separator. So the first character of a display says of which form the expression is (`Expr.Form.ofChar?`), and a name or
a numeral ends at the next separator.

Inside a display another text follows each part. The induction is therefore over two expressions with any texts behind
them, as long as these start with a separator if they start at all: where one display ends, the other one does.

- `Expr.exists_display_cons`: the first character of a display;
- `Expr.display_append_inj`, `Action.display_append_inj`, `Program.display_inj`: displays that agree are of one tree;
- `display_unambiguous`: all of it, and for the programs that texts spell.
-/
import Mathlib.Data.Set.Function
import Mathlib.Tactic
import PolishCalc.Proofs.Program.Source

namespace PolishCalc

open Lexeme Text

/-! ## Words in front of a text -/

/-- a run without a separator ends where the next separator stands -/
theorem word_append_inj (v w k l : List Char) (hv : ∀ c ∈ v, isSeparator c = false)
    (hw : ∀ c ∈ w, isSeparator c = false) (hk : ∀ c ∈ k.head?, isSeparator c = true)
    (hl : ∀ c ∈ l.head?, isSeparator c = true) (h : v ++ k = w ++ l) : v = w ∧ k = l := by
  have hvw : v = w := by rw [← takeWhile_word v k hv hk, h, takeWhile_word w l hw hl]
  subst hvw
  exact ⟨rfl, List.append_cancel_left h⟩

theorem isSeparator_head_cons (c : Char) (h : isSeparator c = true) (l : List Char) :
    ∀ d ∈ (c :: l).head?, isSeparator d = true := by
  intro d hd
  cases hd
  exact h

theorem Decimal.ofInt32_injective : Function.Injective Decimal.ofInt32 := by
  intro v w h
  have hv : Decimal.read? (Decimal.ofInt32 v) = some v := (Decimal.read?_eq_some_iff _ v).2 (Decimal.denotes_ofInt32 v)
  have hw : Decimal.read? (Decimal.ofInt32 w) = some w := (Decimal.read?_eq_some_iff _ w).2 (Decimal.denotes_ofInt32 w)
  rw [h, hw] at hv
  exact (Option.some.inj hv).symm

theorem UnaryOp.symbol_append_inj (op op' : UnaryOp) (k k' : List Char)
    (h : op.symbol.toList ++ k = op'.symbol.toList ++ k') : op = op' ∧ k = k' := by
  cases op <;> cases op' <;> simp_all [symbol]

theorem BinaryOp.symbol_inj (op op' : BinaryOp) (h : op.symbol = op'.symbol) : op = op' := by
  have hop := ofSymbol?_symbol op
  rw [h, ofSymbol?_symbol op'] at hop
  exact (Option.some.inj hop).symm

/-! ## The first character of a display -/

namespace Expr

inductive Form where
  | numeral
  | name
  | unary
  | binary
deriving DecidableEq, Repr

def form : Expr → Form
  | const _ => .numeral
  | var _ => .name
  | unary _ _ => .unary
  | binary _ _ _ => .binary

/-- the form of an expression whose display starts with the character -/
def Form.ofChar? (c : Char) : Option Form :=
  if c = '(' then some .binary
  else if c = '!' ∨ c = '$' then some .unary
  else if c.isAlpha then some .name
  else if c = '-' ∨ c.isDigit then some .numeral
  else none

theorem Form.ofChar?_of_isAlpha (c : Char) (h : c.isAlpha = true) : ofChar? c = some .name := by
  have hne : ∀ d : Char, d.isAlpha = false → c ≠ d := by
    intro d hd
    apply ne_of_apply_ne Char.isAlpha
    rw [h, hd]
    decide
  rw [ofChar?, if_neg (hne '(' (by decide)), if_neg (not_or.2 ⟨hne '!' (by decide), hne '$' (by decide)⟩), if_pos h]

theorem Form.ofChar?_of_isDigit (c : Char) (h : c.isDigit = true) : ofChar? c = some .numeral := by
  have hne : ∀ d : Char, d.isDigit = false → c ≠ d := by
    intro d hd
    apply ne_of_apply_ne Char.isDigit
    rw [h, hd]
    decide
  have halpha : ¬ c.isAlpha = true := by
    rw [isAlpha_of_isDigit c h]
    decide
  rw [ofChar?, if_neg (hne '(' (by decide)), if_neg (not_or.2 ⟨hne '!' (by decide), hne '$' (by decide)⟩), if_neg halpha,
    if_pos (Or.inr h)]

/-- the first character of a display says of which form the expression is -/
theorem exists_display_cons (e : Expr) (h : ∀ x ∈ e.variables, IsName x) :
    ∃ c l, e.display.toList = c :: l ∧ Form.ofChar? c = some e.form := by
  cases e with
  | const v =>
    obtain ⟨l, hne, hd, ⟨hs, -⟩ | ⟨hs, -⟩⟩ := Decimal.denotes_ofInt32 v
    · obtain ⟨c, r, rfl⟩ := List.exists_cons_of_ne_nil hne
      exact ⟨c, r, hs, Form.ofChar?_of_isDigit c (hd c List.mem_cons_self)⟩
    · exact ⟨'-', l, hs, rfl⟩
  | var name =>
    obtain ⟨c, l, hs, hc⟩ := h name List.mem_cons_self
    exact ⟨c, l, hs, Form.ofChar?_of_isAlpha c hc⟩
  | unary op e =>
    cases op with
    | negate => exact ⟨'!', e.display.toList, by simp [display, UnaryOp.symbol], rfl⟩
    | sqrt => exact ⟨'$', e.display.toList, by simp [display, UnaryOp.symbol], rfl⟩
  | binary op l r => exact ⟨'(', _, by simp [display]; rfl, rfl⟩

/-- where displays agree from their first character on, the expressions are of one form -/
theorem form_eq_of_display (e e' : Expr) (k k' : List Char) (he : ∀ x ∈ e.variables, IsClean x)
    (he' : ∀ x ∈ e'.variables, IsClean x) (h : e.display.toList ++ k = e'.display.toList ++ k') : e.form = e'.form := by
  obtain ⟨c, l, hdisplay, hform⟩ := e.exists_display_cons fun x hx => (he x hx).1
  obtain ⟨c', l', hdisplay', hform'⟩ := e'.exists_display_cons fun x hx => (he' x hx).1
  rw [hdisplay, hdisplay'] at h
  obtain ⟨rfl, -⟩ := List.cons.inj h
  rw [hform] at hform'
  exact Option.some.inj hform'

/-! ## Expressions in front of a text -/

theorem toList_display_unary (op : UnaryOp) (e : Expr) (k : List Char) :
    (unary op e).display.toList ++ k = op.symbol.toList ++ (e.display.toList ++ k) := by
  simp [display]

theorem toList_display_binary (op : BinaryOp) (l r : Expr) (k : List Char) :
    (binary op l r).display.toList ++ k =
      '(' :: ' ' :: (l.display.toList ++ ' ' :: (op.symbol.toList ++ ' ' :: (r.display.toList ++ ' ' :: ')' :: k))) := by
  simp [display]

/-- two expressions with texts behind them that agree are one expression with one text behind it -/
theorem display_append_inj (e e' : Expr) (k k' : List Char) (he : ∀ x ∈ e.variables, IsClean x)
    (he' : ∀ x ∈ e'.variables, IsClean x) (hk : ∀ c ∈ k.head?, isSeparator c = true)
    (hk' : ∀ c ∈ k'.head?, isSeparator c = true) (h : e.display.toList ++ k = e'.display.toList ++ k') :
    e = e' ∧ k = k' := by
  have hspace : ∀ l, ∀ c ∈ (' ' :: l).head?, isSeparator c = true := isSeparator_head_cons ' ' rfl
  induction e generalizing e' k k' with
  | const v =>
    have hform := form_eq_of_display _ e' k k' he he' h
    cases e' with
    | const w =>
      obtain ⟨hvw, hrest⟩ := word_append_inj _ _ k k' (isWord_ofInt32 v).2 (isWord_ofInt32 w).2 hk hk' h
      exact ⟨congrArg const (Decimal.ofInt32_injective (String.toList_inj.1 hvw)), hrest⟩
    | _ => cases hform
  | var x =>
    have hform := form_eq_of_display _ e' k k' he he' h
    cases e' with
    | var y =>
      have hx : IsClean x := he x List.mem_cons_self
      have hy : IsClean y := he' y List.mem_cons_self
      obtain ⟨hxy, hrest⟩ := word_append_inj _ _ k k' hx.2 hy.2 hk hk' h
      exact ⟨congrArg var (String.toList_inj.1 hxy), hrest⟩
    | _ => cases hform
  | unary op e ih =>
    have hform := form_eq_of_display _ e' k k' he he' h
    cases e' with
    | unary op' e' =>
      rw [toList_display_unary, toList_display_unary] at h
      obtain ⟨rfl, hrest⟩ := op.symbol_append_inj op' _ _ h
      obtain ⟨rfl, rfl⟩ := ih e' k k' he he' hk hk' hrest
      exact ⟨rfl, rfl⟩
    | _ => cases hform
  | binary op l r ihl ihr =>
    have hform := form_eq_of_display _ e' k k' he he' h
    cases e' with
    | binary op' l' r' =>
      obtain ⟨hl, hr⟩ := List.forall_mem_append.1 he
      obtain ⟨hl', hr'⟩ := List.forall_mem_append.1 he'
      rw [toList_display_binary, toList_display_binary] at h
      -- a space ends the left operand, the symbol and the right operand, one after the other
      have hinner := (List.cons.inj (List.cons.inj h).2).2
      obtain ⟨hll, hbehind⟩ := ihl l' _ _ hl hl' (hspace _) (hspace _) hinner
      have hsymbol := (List.cons.inj hbehind).2
      obtain ⟨hop, hbehind⟩ := word_append_inj _ _ _ _ (isWord_of_mem_reserved _ (symbol_mem_reserved' op)).2
        (isWord_of_mem_reserved _ (symbol_mem_reserved' op')).2 (hspace _) (hspace _) hsymbol
      have hright := (List.cons.inj hbehind).2
      obtain ⟨hrr, hbehind⟩ := ihr r' _ _ hr hr' (hspace _) (hspace _) hright
      rw [hll, hrr, op.symbol_inj op' (String.toList_inj.1 hop)]
      exact ⟨rfl, (List.cons.inj (List.cons.inj hbehind).2).2⟩
    | _ => cases hform

end Expr

/-- no expression starts with the sign of an assignment -/
theorem Expr.display_ne_assign (e : Expr) (h : ∀ x ∈ e.variables, IsClean x) (l k : List Char) :
    '=' :: l ≠ e.display.toList ++ k := by
  intro heq
  obtain ⟨c, r, hdisplay, hform⟩ := e.exists_display_cons fun x hx => (h x hx).1
  rw [hdisplay] at heq
  obtain ⟨rfl, -⟩ := List.cons.inj heq
  cases hform

/-! ## Actions and programs -/

namespace Action

theorem toList_display_assign (name : String) (e : Expr) (k : List Char) :
    (assign name e).display.toList ++ k = name.toList ++ ' ' :: '=' :: ' ' :: (e.display.toList ++ k) := by
  simp [display]

theorem toList_display_print (e : Expr) (k : List Char) :
    (print e).display.toList ++ k = "Print".toList ++ ' ' :: (e.display.toList ++ k) := by
  simp [display]

/-- two actions that agree up to the ends of their lines are one action -/
theorem display_append_inj (a a' : Action) (k k' : List Char) (ha : ∀ x ∈ a.names, IsClean x)
    (ha' : ∀ x ∈ a'.names, IsClean x) (hk : ∀ c ∈ k.head?, isSeparator c = true)
    (hk' : ∀ c ∈ k'.head?, isSeparator c = true) (h : a.display.toList ++ k = a'.display.toList ++ k') :
    a = a' ∧ k = k' := by
  have hspace : ∀ l, ∀ c ∈ (' ' :: l).head?, isSeparator c = true := isSeparator_head_cons ' ' rfl
  have hprint : ∀ c ∈ "Print".toList, isSeparator c = false := (show IsWord "Print" by decide).2
  cases a with
  | assign x e =>
    obtain ⟨hx, he⟩ := List.forall_mem_cons.1 ha
    rw [toList_display_assign] at h
    cases a' with
    | assign y e' =>
      obtain ⟨hy, he'⟩ := List.forall_mem_cons.1 ha'
      rw [toList_display_assign] at h
      obtain ⟨hxy, hbehind⟩ := word_append_inj _ _ _ _ hx.2 hy.2 (hspace _) (hspace _) h
      have hvalue := (List.cons.inj (List.cons.inj (List.cons.inj hbehind).2).2).2
      obtain ⟨rfl, hrest⟩ := e.display_append_inj e' k k' he he' hk hk' hvalue
      exact ⟨by rw [String.toList_inj.1 hxy], hrest⟩
    | print e' =>
      -- the name may be that of the print, but no expression goes on as an assignment does
      rw [toList_display_print] at h
      obtain ⟨-, hbehind⟩ := word_append_inj _ _ _ _ hx.2 hprint (hspace _) (hspace _) h
      exact absurd (List.cons.inj hbehind).2 (e'.display_ne_assign ha' _ k')
  | print e =>
    rw [toList_display_print] at h
    cases a' with
    | assign y e' =>
      obtain ⟨hy, he'⟩ := List.forall_mem_cons.1 ha'
      rw [toList_display_assign] at h
      obtain ⟨-, hbehind⟩ := word_append_inj _ _ _ _ hprint hy.2 (hspace _) (hspace _) h
      exact absurd (List.cons.inj hbehind).2.symm (e.display_ne_assign ha _ k)
    | print e' =>
      rw [toList_display_print] at h
      have hvalue := (List.cons.inj (List.append_cancel_left h)).2
      obtain ⟨rfl, hrest⟩ := e.display_append_inj e' k k' ha ha' hk hk' hvalue
      exact ⟨rfl, hrest⟩

end Action

namespace Program

theorem toList_display_cons (a : Action) (p : Program) :
    (display (a :: p)).toList = a.display.toList ++ '\n' :: (display p).toList := by
  simp [display, String.join_cons]

theorem display_inj (p p' : Program) (hp : ∀ x ∈ p.names, IsClean x) (hp' : ∀ x ∈ p'.names, IsClean x)
    (h : p.display.toList = p'.display.toList) : p = p' := by
  have hfeed : ∀ l, ∀ c ∈ ('\n' :: l).head?, isSeparator c = true := isSeparator_head_cons '\n' rfl
  induction p generalizing p' with
  | nil =>
    cases p' with
    | nil => rfl
    | cons a' p' =>
      rw [toList_display_cons] at h
      exact absurd h.symm (List.append_ne_nil_of_right_ne_nil _ (List.cons_ne_nil _ _))
  | cons a p ih =>
    cases p' with
    | nil =>
      rw [toList_display_cons] at h
      exact absurd h (List.append_ne_nil_of_right_ne_nil _ (List.cons_ne_nil _ _))
    | cons a' p' =>
      obtain ⟨ha, hps⟩ := List.forall_mem_append.1 hp
      obtain ⟨ha', hps'⟩ := List.forall_mem_append.1 hp'
      rw [toList_display_cons, toList_display_cons] at h
      obtain ⟨rfl, hrest⟩ := a.display_append_inj a' _ _ ha ha' (hfeed _) (hfeed _) h
      rw [ih p' hps hps' (List.cons.inj hrest).2]

end Program

/-- **The display is unambiguous.** If all names start with an ASCII letter and hold no separator, expressions with one
display are equal, and so are actions and programs. In particular this is so of any two programs that texts spell. -/
theorem display_unambiguous :
    Set.InjOn Expr.display {e | ∀ x ∈ e.variables, IsClean x} ∧
    Set.InjOn Action.display {a | ∀ x ∈ a.names, IsClean x} ∧
    Set.InjOn Program.display {p | ∀ x ∈ p.names, IsClean x} ∧
    ∀ (s s' : String) (mode mode' : InputMode) (p p' : Program), Program.ofText s mode = .ok p →
      Program.ofText s' mode' = .ok p' → p.display = p'.display → p = p' := by
  have hnil : ∀ c ∈ ([] : List Char).head?, isSeparator c = true := by simp
  have hprograms : Set.InjOn Program.display {p | ∀ x ∈ p.names, IsClean x} := by
    intro p hp p' hp' h
    exact p.display_inj p' hp hp' (congrArg String.toList h)
  refine ⟨?_, ?_, hprograms, ?_⟩
  · intro e he e' he' h
    exact (e.display_append_inj e' [] [] he he' hnil hnil (by rw [h])).1
  · intro a ha a' ha' h
    exact (a.display_append_inj a' [] [] ha ha' hnil hnil (by rw [h])).1
  · intro s s' mode mode' p p' hp hp' h
    exact hprograms (isClean_names_of_ofText s mode p hp) (isClean_names_of_ofText s' mode' p' hp') h

/-- a bracket in a name and one behind it; and two texts, one of which assigns to a variable with the name of the print -/
theorem display_unambiguous_print :
    (∀ x ∈ (Expr.binary .sub (.var "x)") (.const (-1))).variables, IsClean x) ∧
    (∀ x ∈ (Expr.binary .sub (.var "x") (.unary .negate (.const 1))).variables, IsClean x) ∧
    (Expr.binary .sub (.var "x)") (.const (-1))).display ≠
      (Expr.binary .sub (.var "x") (.unary .negate (.const 1))).display ∧
    (∀ x ∈ (Action.assign "Print" (.var "x")).names, IsClean x) ∧ (∀ x ∈ (Action.print (.var "x")).names, IsClean x) ∧
    (Action.assign "Print" (.var "x")).display ≠ (Action.print (.var "x")).display ∧
    Program.ofText "= Print 1" .file = .ok [.assign "Print" (.const 1)] ∧
    Program.ofText "@ 1" .file = .ok [.print (.const 1)] ∧
    Program.display [.assign "Print" (.const 1)] ≠ Program.display [.print (.const 1)] := by
  have hclean : ∀ s, isIdentifier s = true → IsWord s → IsClean s := fun s hs hw => ⟨(isIdentifier_iff s).1 hs, hw.2⟩
  have hx : IsClean "x" := hclean "x" (by decide) (by decide)
  have hbracket : IsClean "x)" := hclean "x)" (by decide) (by decide)
  have hprint : IsClean "Print" := hclean "Print" (by decide) (by decide)
  have hleft : ∀ x ∈ (Expr.binary .sub (.var "x)") (.const (-1))).variables, IsClean x := by
    simpa [Expr.variables] using hbracket
  have hright : ∀ x ∈ (Expr.binary .sub (.var "x") (.unary .negate (.const 1))).variables, IsClean x := by
    simpa [Expr.variables] using hx
  have hassign : ∀ x ∈ (Action.assign "Print" (.var "x")).names, IsClean x := by
    simpa [Action.names, Expr.variables] using And.intro hprint hx
  have hvalue : ∀ x ∈ (Action.print (.var "x")).names, IsClean x := by
    simpa [Action.names, Expr.variables] using hx
  have htext : Program.ofText "= Print 1" .file = .ok [.assign "Print" (.const 1)] := by decide +kernel
  have htext' : Program.ofText "@ 1" .file = .ok [.print (.const 1)] := by decide +kernel
  obtain ⟨hexprs, hactions, -, htexts⟩ := display_unambiguous
  refine ⟨hleft, hright, fun h => ?_, hassign, hvalue, fun h => ?_, htext, htext', fun h => ?_⟩
  · exact absurd (hexprs hleft hright h) (by decide)
  · exact absurd (hactions hassign hvalue h) (by decide)
  · exact absurd (htexts _ _ _ _ _ _ htext htext' h) (by decide)

end PolishCalc
