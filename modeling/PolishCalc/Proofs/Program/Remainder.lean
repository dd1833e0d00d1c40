/-
What parsers leave of the tokens.

Whether a parser succeeds or fails, it leaves a suffix of the tokens that it was given. On success it has taken one
token for each node of an expression, and those of the action around it. On failure it is the error that says how far
the parser came (`Stops`): without a place, the tokens ran out; with a place, the token there is the last one that was
taken, unless it is a marker inside an unfinished action, which stays for the action that it starts.

- `exprWithin_eq_ok_iff`, `action_eq_ok_iff`, `program_eq_ok_iff`: what is taken on success;
- `exprWithin_apt`, `action_apt`, `actionsAfter_apt`: the kind of an error says what the lexeme is that it names;
- `exprWithin_stops`, `action_stops`, `actionsAfter_stops`: what is left on failure;
- `action_left`, `actionsAfter_left`: an action or a program takes at least the first token, even if it fails.
-/
import Mathlib.Tactic
import PolishCalc.Proofs.Program.Diagnosis

namespace PolishCalc

open Lexeme PolishCalc.Parser

/-! ## What is taken on success -/

def Expr.size : Expr → ℕ
  | const _ => 1
  | var _ => 1
  | unary _ e => e.size + 1
  | binary _ l r => l.size + r.size + 1

/-- the nodes of the expression and the words before it: the marker, and the name that is assigned to -/
def Action.size : Action → ℕ
  | assign _ e => e.size + 2
  | print e => e.size + 1

theorem Expr.Spelling.length (e : Expr) (w : List String) (h : e.Spelling w) : w.length = e.size := by
  induction h with
  | const v s _ => rfl
  | var name _ => rfl
  | unary op e u _ ih => rw [List.length_cons, ih, size]
  | binary op l r u w _ _ ihl ihr => rw [List.length_cons, List.length_append, ihl, ihr, size]

theorem Action.Spelling.length (a : Action) (w : List String) (h : a.Spelling w) : w.length = a.size := by
  cases h with
  | assign name e u _ he => rw [List.length_cons, List.length_cons, he.length, size]
  | print e u he => rw [List.length_cons, he.length, size]

/-- the lexemes that an error of this kind can name -/
def ParseError.Kind.Blames : ParseError.Kind → String → Prop
  | illegalAction, s => isMarker s = false
  | illegalOperator, s => s ∉ reserved ∧ isIdentifier s = false ∧ literal? s = none
  | illegalTarget, s => ¬ IsName s
  | prematureEnd, s => isMarker s = true
  | nestingLimitExceeded, s => (∃ op : UnaryOp, s = op.symbol) ∨ ∃ op : BinaryOp, s = op.symbol

/-- the lexeme that the error names, if there is one, is of the sort that its kind says -/
def ParseError.Apt (e : ParseError) : Prop := ∀ s, e.found = some s → e.kind.Blames s

theorem ParseError.apt_atToken (kind : ParseError.Kind) (t : Token) (expected : List String)
    (h : kind.Blames t.lexeme) : (ParseError.atToken kind t expected).Apt := by
  intro s hs
  cases hs
  exact h

theorem ParseError.apt_prematureEnd (labels : List String) : (ParseError.prematureEnd labels).Apt := by
  intro s hs
  cases hs

namespace Parser

variable {α β : Type}

/-- an expression is read off the front of the tokens exactly when these spell it and there is room for it -/
theorem exprWithin_eq_ok_iff (limit room : ℕ) (ts rest : List Token) (e : Expr) :
    exprWithin limit room ts = .ok e rest ↔
      ∃ pre, ts = pre ++ rest ∧ pre.length = e.size ∧ e.Spelling (pre.map Token.lexeme) ∧ e.nesting ≤ room := by
  constructor
  · intro h
    obtain ⟨pre, hts, hs, hle⟩ := exprWithin_sound limit room ts rest e h
    exact ⟨pre, hts, by simpa using hs.length, hs, hle⟩
  · rintro ⟨pre, rfl, -, hs, hle⟩
    exact hs.reads limit e _ room hle pre rfl rest

theorem action_eq_ok_iff (limit : ℕ) (ts rest : List Token) (a : Action) :
    action limit ts = .ok a rest ↔
      ∃ pre, ts = pre ++ rest ∧ pre.length = a.size ∧ a.Spelling (pre.map Token.lexeme) ∧ a.expr.nesting ≤ limit := by
  constructor
  · intro h
    obtain ⟨pre, hts, hs, hle⟩ := action_sound limit ts rest a h
    exact ⟨pre, hts, by simpa using hs.length, hs, hle⟩
  · rintro ⟨pre, rfl, -, hs, hle⟩
    exact hs.reads limit a _ hle pre rfl rest

/-- a program is read exactly when all of the tokens spell it -/
theorem program_eq_ok_iff (limit : ℕ) (ts rest : List Token) (p : Program) :
    program limit ts = .ok p rest ↔
      rest = [] ∧ p.Spelling (ts.map Token.lexeme) ∧ ∀ a ∈ p, a.expr.nesting ≤ limit := by
  constructor
  · intro h
    obtain ⟨q, rfl, hs, hle⟩ := actionsAfter_sound limit #[] ts rest p h
    have hall := hs.actionsAfter limit _ _ hle ts rfl #[]
    rw [program, hall] at h
    cases h
    exact ⟨rfl, hs, hle⟩
  · rintro ⟨rfl, hs, hle⟩
    exact hs.actionsAfter limit p _ hle ts rfl #[]

/-! ## What the kind of an error says -/

/-- all errors of the parser are apt -/
def Apt (p : Parser α) : Prop := ∀ ts e rest, p ts = .error e rest → e.Apt

theorem apt_pure (a : α) : Apt (pure a : Parser α) := by
  intro ts e rest h
  cases h

theorem Apt.bind (p : Parser α) (f : α → Parser β) (hp : Apt p) (hf : ∀ a, Apt (f a)) : Apt (p >>= f) := by
  intro ts e rest h
  rcases (bind_eq_error_iff _ _ _ _ _).1 h with h | ⟨a, mid, -, h⟩
  · exact hp ts e rest h
  · exact hf a mid e rest h

theorem exprWithin_apt (limit room : ℕ) : Apt (exprWithin limit room) := by
  -- over the room, as the parser recurs
  induction room using Nat.strong_induction_on with
  | _ room ih =>
    intro ts e rest h
    cases ts with
    | nil =>
      rw [exprWithin_nil] at h
      cases h
      exact ParseError.apt_prematureEnd _
    | cons t ts =>
      rcases class_cases t.lexeme with hm | ⟨op, ho⟩ | ⟨op, ho⟩ | hn | ⟨v, hv⟩ | hnone
      · rw [exprWithin_marker _ _ _ _ hm] at h
        cases h
        exact ParseError.apt_atToken _ t _ hm
      · cases room with
        | zero =>
          rw [exprWithin_unary_zero _ op _ _ ho] at h
          cases h
          exact ParseError.apt_atToken _ t _ (Or.inl ⟨op, ho⟩)
        | succ room =>
          rw [exprWithin_unary _ _ op _ _ ho] at h
          exact Apt.bind _ _ (ih room (by omega)) (fun _ => apt_pure _) ts e rest h
      · cases room with
        | zero =>
          rw [exprWithin_binary_zero _ op _ _ ho] at h
          cases h
          exact ParseError.apt_atToken _ t _ (Or.inr ⟨op, ho⟩)
        | succ room =>
          have hrec := ih room (by omega)
          rw [exprWithin_binary _ _ op _ _ ho] at h
          exact Apt.bind _ _ hrec (fun _ => Apt.bind _ _ hrec fun _ => apt_pure _) ts e rest h
      · rw [exprWithin_name _ _ _ _ hn] at h
        cases h
      · rw [exprWithin_literal _ _ v _ _ hv] at h
        cases h
      · obtain ⟨hr, hi, hl⟩ := hnone
        rw [exprWithin_illegal _ _ _ _ hr hi hl] at h
        cases h
        exact ParseError.apt_atToken _ t _ ⟨hr, hi, hl⟩

theorem action_apt (limit : ℕ) : Apt (action limit) := by
  have hexpr : ∀ f : Expr → Action, Apt (expr limit >>= fun e => pure (f e)) :=
    fun f => Apt.bind _ _ (exprWithin_apt limit limit) fun _ => apt_pure _
  intro ts e rest h
  cases ts with
  | nil =>
    rw [action_nil] at h
    cases h
    exact ParseError.apt_prematureEnd _
  | cons t ts =>
    by_cases ha : t.lexeme = assignMarker
    · cases ts with
      | nil =>
        rw [action_assign_nil _ _ ha] at h
        cases h
        exact ParseError.apt_prematureEnd _
      | cons target ts =>
        by_cases hn : IsName target.lexeme
        · rw [action_assign _ _ _ _ ha hn] at h
          exact hexpr _ ts e rest h
        · rw [action_illegalTarget _ _ _ _ ha hn] at h
          cases h
          exact ParseError.apt_atToken _ target _ hn
    · by_cases hp : t.lexeme = printMarker
      · rw [action_print _ _ _ hp] at h
        exact hexpr _ ts e rest h
      · rw [action_illegal _ _ _ ha hp] at h
        cases h
        exact ParseError.apt_atToken _ t _ (by simp [ParseError.Kind.Blames, isMarker, ha, hp])

theorem actionsAfter_apt (limit : ℕ) (acc : Array Action) : Apt (actionsAfter limit acc) := by
  intro ts e rest h
  fun_induction actionsAfter limit acc ts with
  | case1 acc => cases h
  | case2 acc t ts a mid _ ih => exact ih h
  | case3 acc t ts e' mid he =>
    cases h
    exact action_apt limit _ _ _ he

/-! ## What is left on failure -/

/-- some tokens behind `pre` make the parser succeed on all of them -/
def Promising (p : Parser α) (pre : List Token) : Prop := ∃ more a, p (pre ++ more) = .ok a []

theorem Completable.promising (p : Parser α) (pre : List Token) (h : Completable p pre) : Promising p pre := by
  obtain ⟨more, a, hr⟩ := h
  have hrun := hr []
  rw [List.append_nil] at hrun
  exact ⟨more, a, hrun⟩

/-- how a parser that fails with the error `e` leaves the tokens `ts`; the token at fault is the first one with which the
parser fails whatever follows -/
inductive Stops (p : Parser α) (ts : List Token) (e : ParseError) : List Token → Prop
  /-- the tokens ran out -/
  | exhausted (hk : e.kind = .prematureEnd) (hs : e.span = none) (hf : e.found = none) (hp : Promising p ts) :
      Stops p ts e []
  /-- the token `t` is at fault, and taken -/
  | behind (pre post : List Token) (t : Token) (hts : ts = pre ++ t :: post) (hs : e.span = some t.span)
      (hf : e.found = some t.lexeme) (hk : e.kind ≠ .prematureEnd) (hp : Promising p pre)
      (hrun : ∀ more, p (pre ++ t :: more) = .error e more) : Stops p ts e post
  /-- the marker `t` comes too early, and stays -/
  | before (pre post : List Token) (t : Token) (hts : ts = pre ++ t :: post) (hs : e.span = some t.span)
      (hf : e.found = some t.lexeme) (hk : e.kind = .prematureEnd) (hm : isMarker t.lexeme = true)
      (hp : Promising p pre) (hrun : ∀ more, p (pre ++ t :: more) = .error e (t :: more)) : Stops p ts e (t :: post)

theorem Starves.stops (p : Parser α) (ts rest : List Token) (e : ParseError) (h : Starves p ts e)
    (hp : Promising p ts) (herr : p ts = .error e rest) : Stops p ts e rest := by
  rw [h.run] at herr
  cases herr
  exact .exhausted h.kind h.span h.found hp

theorem Rejects.stops (p : Parser α) (pre post rest : List Token) (t : Token) (e : ParseError) (h : Rejects p pre t e)
    (ha : e.Apt) (hp : Promising p pre) (herr : p (pre ++ t :: post) = .error e rest) :
    Stops p (pre ++ t :: post) e rest := by
  have hrun := h.run
  rw [hrun post] at herr
  cases herr
  by_cases hk : e.kind = .prematureEnd
  · have hm : isMarker t.lexeme = true := by
      have := ha t.lexeme h.found
      rwa [hk] at this
    simp only [leftAt, if_pos hk] at hrun ⊢
    exact .before pre post t rfl h.span h.found hk hm hp hrun
  · simp only [leftAt, if_neg hk] at hrun ⊢
    exact .behind pre post t rfl h.span h.found hk hp hrun

theorem Decides.stops (p : Parser α) (ts rest : List Token) (e : ParseError) (h : Decides p ts) (ha : Apt p)
    (herr : p ts = .error e rest) : Stops p ts e rest := by
  rcases h.of_error _ _ _ _ herr with ⟨hs, hc⟩ | ⟨pre, t, post, rfl, hr, hc⟩
  · exact hs.stops _ _ _ _ hc.promising herr
  · exact hr.stops _ _ _ _ _ _ (ha _ _ _ herr) hc.promising herr

theorem exprWithin_stops (limit room : ℕ) (ts rest : List Token) (e : ParseError)
    (h : exprWithin limit room ts = .error e rest) : Stops (exprWithin limit room) ts e rest :=
  (exprWithin_decides limit room ts).stops _ _ _ _ (exprWithin_apt limit room) h

theorem action_stops (limit : ℕ) (ts rest : List Token) (e : ParseError) (h : action limit ts = .error e rest) :
    Stops (action limit) ts e rest :=
  (action_decides limit ts).stops _ _ _ _ (action_apt limit) h

theorem actionsAfter_stops (limit : ℕ) (acc : Array Action) (ts rest : List Token) (e : ParseError)
    (h : actionsAfter limit acc ts = .error e rest) : Stops (actionsAfter limit acc) ts e rest := by
  rcases actionsAfter_fails limit acc ts rest e h with ⟨hs, hp⟩ | ⟨pre, t, post, rfl, hr, hp⟩
  · exact hs.stops _ _ _ _ hp h
  · exact hr.stops _ _ _ _ _ _ (actionsAfter_apt limit acc _ _ _ h) hp h

/-! ## What is left in any case -/

/-- the tokens that the parser leaves, whether it succeeds or fails -/
def left (p : Parser α) (ts : List Token) : List Token :=
  match p ts with
  | .ok _ rest => rest
  | .error _ rest => rest

theorem left_of_ok (p : Parser α) (ts rest : List Token) (a : α) (h : p ts = .ok a rest) : left p ts = rest := by
  simp only [left, h]

theorem left_of_error (p : Parser α) (ts rest : List Token) (e : ParseError) (h : p ts = .error e rest) :
    left p ts = rest := by
  simp only [left, h]

theorem left_congr (p q : Parser α) (ts us : List Token) (h : p ts = q us) : left p ts = left q us := by
  simp only [left, h]

theorem left_bind_pure (p : Parser α) (f : α → β) (ts : List Token) :
    left (p >>= fun a => pure (f a)) ts = left p ts := by
  cases h : p ts with
  | ok a rest =>
    have hbind : (p >>= fun a => pure (f a)) ts = .ok (f a) rest := bind_of_ok _ _ _ _ _ h
    rw [left_of_ok _ _ _ _ h, left_of_ok _ _ _ _ hbind]
  | error e rest => rw [left_of_error _ _ _ _ h, left_of_error _ _ _ _ (bind_of_error _ _ _ _ _ h)]

theorem Stops.suffix (p : Parser α) (ts rest : List Token) (e : ParseError) (h : Stops p ts e rest) : rest <:+ ts := by
  cases h with
  | exhausted => exact List.nil_suffix
  | behind pre _ t hts => exact ⟨pre ++ [t], by rw [hts, List.append_assoc, List.singleton_append]⟩
  | before pre post t hts => exact ⟨pre, hts.symm⟩

theorem exprWithin_left (limit room : ℕ) (ts : List Token) : left (exprWithin limit room) ts <:+ ts := by
  cases h : exprWithin limit room ts with
  | ok e rest =>
    obtain ⟨pre, hts, -⟩ := (exprWithin_eq_ok_iff _ _ _ _ _).1 h
    rw [left_of_ok _ _ _ _ h]
    exact ⟨pre, hts.symm⟩
  | error e rest =>
    rw [left_of_error _ _ _ _ h]
    exact (exprWithin_stops _ _ _ _ _ h).suffix

/-- an action takes the first token, even if it fails -/
theorem action_left (limit : ℕ) (ts : List Token) : left (action limit) ts <:+ ts.tail := by
  cases ts with
  | nil => rw [left_of_error _ _ _ _ (action_nil limit), List.tail_nil]
  | cons t ts =>
    rw [List.tail_cons]
    by_cases ha : t.lexeme = assignMarker
    · cases ts with
      | nil => rw [left_of_error _ _ _ _ (action_assign_nil limit t ha)]
      | cons target ts =>
        by_cases hn : IsName target.lexeme
        · rw [left_congr _ _ _ _ (action_assign limit t target ts ha hn), left_bind_pure]
          exact (exprWithin_left limit limit ts).trans (List.suffix_cons target ts)
        · rw [left_of_error _ _ _ _ (action_illegalTarget limit t target ts ha hn)]
          exact List.suffix_cons target ts
    · by_cases hp : t.lexeme = printMarker
      · rw [left_congr _ _ _ _ (action_print limit t ts hp), left_bind_pure]
        exact exprWithin_left limit limit ts
      · rw [left_of_error _ _ _ _ (action_illegal limit t ts ha hp)]

/-- so does a program -/
theorem actionsAfter_left (limit : ℕ) (acc : Array Action) (ts : List Token) :
    left (actionsAfter limit acc) ts <:+ ts.tail := by
  fun_induction actionsAfter limit acc ts with
  | case1 acc => rw [left_of_ok _ _ _ _ (actionsAfter_nil limit acc), List.tail_nil]
  | case2 acc t ts a mid ha ih =>
    have hmid := action_left limit (t :: ts)
    rw [left_of_ok _ _ _ _ ha] at hmid
    rw [left_congr _ _ _ _ (actionsAfter_of_ok _ _ _ _ _ ha)]
    exact ih.trans ((List.tail_suffix mid).trans hmid)
  | case3 acc t ts e mid he =>
    have hmid := action_left limit (t :: ts)
    rw [left_of_error _ _ _ _ he] at hmid
    rw [left_of_error _ _ _ _ (actionsAfter_of_error _ _ _ _ _ _ he)]
    exact hmid

end Parser

end PolishCalc
