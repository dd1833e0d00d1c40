/-
A reader can be used again after any failure.

The depth of a reader is counted by hand around the operands of each operator, whether they are parsed or not. `Follows`
says that a reading does what a parser without a counter does on the same tokens, that the depth comes back to what it
was, and that on the way it is never set to more than the limit. It is closed under sequencing (`Follows.bind`) and under
entering an operator (`follows_nested`), so it holds of expressions, actions and programs.

A reader is used by calls; whatever a call answers, the next one finds the reader as it was left.

- `expr_follows`, `action_follows`, `program_follows`: what one call does, by the parser of the same name;
- `program_ofTokens`: a fresh reader answers with the program that its tokens spell;
- `after_ready`, `calls_ready`: what a call keeps, and so any calls;
- `calls_reuse`: all of it together, for a fresh reader.
-/
import Mathlib.Tactic
import PolishCalc.Program.Reader
import PolishCalc.Proofs.Program.Remainder

namespace PolishCalc.Reader

open PolishCalc.Parser

variable {α β : Type}

/-! ## A counter that comes back -/

/-- the reader with the tokens `ts`, after its depth was set to the values `ds` and back, the latest first -/
def moved (r : Reader) (ts : List Token) (ds : List ℕ) : Reader := ⟨r.limit, ts, r.depth, ds ++ r.depths⟩

theorem moved_moved (r : Reader) (ts ts' : List Token) (ds ds' : List ℕ) :
    (r.moved ts ds).moved ts' ds' = r.moved ts' (ds' ++ ds) := by
  simp [moved]

theorem moved_self (r : Reader) : r.moved r.tokens [] = r := rfl

/-- on the reader `r`, `p` does to the tokens what `q` does, and leaves the depth as it was; whatever the depth was set
to on the way is within the limit -/
inductive Follows (p : Reading α) (q : Parser α) (r : Reader) : Prop
  | ok (a : α) (ts : List Token) (ds : List ℕ) (hds : ∀ d ∈ ds, d ≤ r.limit) (hq : q r.tokens = .ok a ts)
      (hp : p r = .ok a (r.moved ts ds))
  | error (e : ParseError) (ts : List Token) (ds : List ℕ) (hds : ∀ d ∈ ds, d ≤ r.limit)
      (hq : q r.tokens = .error e ts) (hp : p r = .error e (r.moved ts ds))

theorem follows_onTokens (q : Parser α) (r : Reader) : Follows (onTokens q) q r := by
  cases hq : q r.tokens with
  | ok a ts => exact .ok a ts [] (by simp) hq (by simp only [onTokens, hq]; rfl)
  | error e ts => exact .error e ts [] (by simp) hq (by simp only [onTokens, hq]; rfl)

theorem follows_pure (a : α) (r : Reader) : Follows (pure a) (pure a) r := .ok a r.tokens [] (by simp) rfl rfl

theorem follows_throw (e : ParseError) (r : Reader) : Follows (throw e : Reading α) (throw e) r :=
  .error e r.tokens [] (by simp) rfl rfl

/-- a reading that has moved the reader follows the parser as the one does that goes on -/
theorem Follows.behind (p p' : Reading α) (q q' : Parser α) (r : Reader) (ts : List Token) (ds : List ℕ)
    (hds : ∀ d ∈ ds, d ≤ r.limit) (hq : q r.tokens = q' ts) (hp : p r = p' (r.moved ts ds))
    (h : Follows p' q' (r.moved ts ds)) : Follows p q r := by
  have hall : ∀ ds', (∀ d ∈ ds', d ≤ r.limit) → ∀ d ∈ ds' ++ ds, d ≤ r.limit :=
    fun ds' hds' d hd => (List.mem_append.1 hd).elim (hds' d) (hds d)
  cases h with
  | ok a ts' ds' hds' hq' hp' =>
    exact .ok a ts' (ds' ++ ds) (hall ds' hds') (hq.trans hq') (by rw [hp, hp', moved_moved])
  | error e ts' ds' hds' hq' hp' =>
    exact .error e ts' (ds' ++ ds) (hall ds' hds') (hq.trans hq') (by rw [hp, hp', moved_moved])

theorem Follows.bind (p : Reading α) (q : Parser α) (f : α → Reading β) (g : α → Parser β) (r : Reader)
    (h : Follows p q r) (hf : ∀ a ts ds, q r.tokens = .ok a ts → Follows (f a) (g a) (r.moved ts ds)) :
    Follows (p >>= f) (q >>= g) r := by
  cases h with
  | ok a ts ds hds hq hp =>
    exact (hf a ts ds hq).behind _ _ _ _ r ts ds hds (bind_of_ok _ _ _ _ _ hq) (bind_of_ok _ _ _ _ _ hp)
  | error e ts ds hds hq hp => exact .error e ts ds hds (bind_of_error _ _ _ _ _ hq) (bind_of_error _ _ _ _ _ hp)

/-- one more operator is counted while its operands are parsed -/
theorem follows_nested (t : Token) (p : Reading α) (q : Parser α) (r : Reader) (hlt : r.depth < r.limit)
    (h : Follows p q (r.setDepth (r.depth + 1))) : Follows (nested t p) q r := by
  have henter : enter t r = .ok () (r.setDepth (r.depth + 1)) := by
    simp only [enter, if_neg (not_le.2 hlt)]
  have hleave : ∀ ts ds, ((r.setDepth (r.depth + 1)).moved ts ds).leave =
      r.moved ts (r.depth :: (ds ++ [r.depth + 1])) := by
    intro ts ds
    simp [moved, leave, setDepth]
  have hall : ∀ ds, (∀ d ∈ ds, d ≤ r.limit) → ∀ d ∈ r.depth :: (ds ++ [r.depth + 1]), d ≤ r.limit := by
    intro ds hds d hd
    rcases List.mem_cons.1 hd with rfl | hd
    · exact hlt.le
    · rcases List.mem_append.1 hd with hd | hd
      · exact hds d hd
      · rw [List.mem_singleton.1 hd]
        exact hlt
  cases h with
  | ok a ts ds hds hq hp => exact .ok a ts _ (hall ds hds) hq (by simp only [nested, henter, hp, hleave])
  | error e ts ds hds hq hp => exact .error e ts _ (hall ds hds) hq (by simp only [nested, henter, hp, hleave])

/-- an operator too many is refused, and not counted -/
theorem follows_nested_full (t : Token) (p : Reading α) (r : Reader) (hle : r.limit ≤ r.depth) :
    Follows (nested t p) (throw (.nestingLimitExceeded t r.limit)) r := by
  refine .error _ r.tokens [] (by simp) rfl ?_
  simp only [nested, enter, if_pos hle, moved_self]

/-! ## What one call does -/

theorem exprUpTo_follows (n room : ℕ) (r : Reader) (hn : r.tokens.length ≤ n) (hroom : r.depth + room = r.limit) :
    Follows (exprUpTo n) (exprWithin r.limit room) r := by
  induction n generalizing room r with
  | zero =>
    have hnil : r.tokens = [] := List.length_eq_zero_iff.1 (Nat.le_zero.1 hn)
    exact .error _ r.tokens [] (by simp) (by rw [hnil, exprWithin_nil]) rfl
  | succ n ih =>
    rw [exprUpTo, exprWithin]
    refine Follows.bind _ _ _ _ r (follows_onTokens exprHead r) fun t ts ds ht => ?_
    -- the first token is taken, so one token less bounds the operands
    have hlen : ts.length ≤ n := by
      have := takes_exprHead _ _ _ ht
      omega
    cases UnaryOp.ofSymbol? t.lexeme with
    | some op =>
      cases room with
      | zero => exact follows_nested_full t _ (r.moved ts ds) hroom.ge
      | succ room =>
        have hlt : r.depth < r.limit := by omega
        have hroom' : r.depth + 1 + room = r.limit := by omega
        refine follows_nested t _ _ (r.moved ts ds) hlt ?_
        have he := ih room ((r.moved ts ds).setDepth (r.depth + 1)) hlen hroom'
        exact Follows.bind _ _ _ _ _ he fun e _ _ _ => follows_pure _ _
    | none =>
      cases BinaryOp.ofSymbol? t.lexeme with
      | some op =>
        cases room with
        | zero => exact follows_nested_full t _ (r.moved ts ds) hroom.ge
        | succ room =>
          have hlt : r.depth < r.limit := by omega
          have hroom' : r.depth + 1 + room = r.limit := by omega
          refine follows_nested t _ _ (r.moved ts ds) hlt ?_
          have hleft := ih room ((r.moved ts ds).setDepth (r.depth + 1)) hlen hroom'
          refine Follows.bind _ _ _ _ _ hleft fun l ts' ds' hl => ?_
          have hlen' : ts'.length ≤ n := le_trans (Nat.le_of_succ_le (takes_exprWithin _ _ _ _ _ hl)) hlen
          have hright := ih room (((r.moved ts ds).setDepth (r.depth + 1)).moved ts' ds') hlen' hroom'
          exact Follows.bind _ _ _ _ _ hright fun e _ _ _ => follows_pure _ _
      | none =>
        dsimp only
        split
        · exact follows_pure _ _
        · cases Lexeme.literal? t.lexeme with
          | some v => exact follows_pure _ _
          | none => exact follows_throw _ _

theorem expr_follows (r : Reader) (hd : r.depth = 0) : Follows expr (Parser.expr r.limit) r := by
  have h := exprUpTo_follows r.tokens.length r.limit r le_rfl (by omega)
  exact h.behind _ (exprUpTo r.tokens.length) _ (exprWithin r.limit r.limit) r r.tokens [] (by simp) rfl rfl

theorem action_follows (r : Reader) (hd : r.depth = 0) : Follows action (Parser.action r.limit) r := by
  have hexpr : ∀ (f : Expr → Action) (ts : List Token) (ds : List ℕ),
      Follows (expr >>= fun e => pure (f e)) (Parser.expr r.limit >>= fun e => pure (f e)) (r.moved ts ds) :=
    fun f ts ds => Follows.bind _ _ _ _ _ (expr_follows (r.moved ts ds) hd) fun _ _ _ _ => follows_pure _ _
  refine Follows.bind _ _ _ _ r (follows_onTokens _ r) fun marker ts ds _ => ?_
  split
  · refine Follows.bind _ _ _ _ _ (follows_onTokens _ _) fun target ts' ds' _ => ?_
    rw [moved_moved]
    split
    · exact hexpr _ _ _
    · exact follows_throw _ _
  · split
    · exact hexpr _ _ _
    · exact follows_throw _ _

theorem actionsUpTo_follows (n : ℕ) (acc : Array Action) (r : Reader) (hn : r.tokens.length ≤ n) (hd : r.depth = 0) :
    Follows (actionsUpTo n acc) (actionsAfter r.limit acc) r := by
  induction n generalizing acc r with
  | zero =>
    have hnil : r.tokens = [] := List.length_eq_zero_iff.1 (Nat.le_zero.1 hn)
    exact .ok acc.toList [] [] (by simp) (by rw [hnil, actionsAfter_nil]) (by rw [actionsUpTo, ← hnil, moved_self])
  | succ n ih =>
    cases hts : r.tokens with
    | nil =>
      exact .ok acc.toList [] [] (by simp) (by rw [hts, actionsAfter_nil])
        (by rw [actionsUpTo, if_pos (by simp [hts]), ← hts, moved_self])
    | cons t ts =>
      have hne : ¬ r.tokens.isEmpty = true := by simp [hts]
      cases action_follows r hd with
      | ok a rest ds hds hq hp =>
        have hlen : rest.length ≤ n := by
          have := takes_action _ _ _ _ hq
          omega
        refine (ih (acc.push a) (r.moved rest ds) hlen hd).behind _ _ _ _ r rest ds hds ?_ ?_
        · exact actionsAfter_of_ok _ _ _ _ _ hq
        · rw [actionsUpTo, if_neg hne, hp]
      | error e rest ds hds hq hp =>
        refine .error e rest ds hds ?_ ?_
        · rw [hts] at hq ⊢
          exact actionsAfter_of_error _ _ _ _ _ _ hq
        · rw [actionsUpTo, if_neg hne, hp]

theorem program_follows (r : Reader) (hd : r.depth = 0) : Follows program (Parser.program r.limit) r := by
  have h := actionsUpTo_follows r.tokens.length #[] r le_rfl hd
  exact h.behind _ (actionsUpTo r.tokens.length #[]) _ (actionsAfter r.limit #[]) r r.tokens [] (by simp) rfl rfl

/-! ## Histories of calls -/

inductive Call where
  | expr
  | action
  | program
deriving DecidableEq, Repr

namespace Call

/-- what the call answers with when it succeeds -/
abbrev Value : Call → Type
  | expr => Expr
  | action => Action
  | program => Program

def perform : (c : Call) → Reading c.Value
  | expr => Reader.expr
  | action => Reader.action
  | program => Reader.program

/-- what the call answers, and the tokens that it leaves -/
def outcome (c : Call) (r : Reader) : EStateM.Result ParseError (List Token) c.Value :=
  match c.perform r with
  | .ok a r' => .ok a r'.tokens
  | .error e r' => .error e r'.tokens

/-- the reader after the call, whether it succeeds or fails -/
def after (c : Call) (r : Reader) : Reader :=
  match c.perform r with
  | .ok _ r' => r'
  | .error _ r' => r'

/-- what the call answers on a fresh reader over the tokens -/
def fresh (limit : ℕ) (c : Call) : Parser c.Value := fun ts => c.outcome (ofTokens limit ts)

def parser (limit : ℕ) : (c : Call) → Parser c.Value
  | expr => Parser.expr limit
  | action => Parser.action limit
  | program => Parser.program limit

theorem perform_follows (c : Call) (r : Reader) (hd : r.depth = 0) : Follows c.perform (c.parser r.limit) r := by
  cases c with
  | expr => exact expr_follows r hd
  | action => exact action_follows r hd
  | program => exact program_follows r hd

theorem outcome_eq (c : Call) (r : Reader) (hd : r.depth = 0) : c.outcome r = c.parser r.limit r.tokens := by
  cases perform_follows c r hd with
  | ok a ts ds _ hq hp =>
    rw [outcome, hp, hq]
    rfl
  | error e ts ds _ hq hp =>
    rw [outcome, hp, hq]
    rfl

theorem after_eq (c : Call) (r : Reader) (hd : r.depth = 0) :
    ∃ ds, (∀ d ∈ ds, d ≤ r.limit) ∧ c.after r = r.moved (left (c.parser r.limit) r.tokens) ds := by
  cases perform_follows c r hd with
  | ok a ts ds hds hq hp => exact ⟨ds, hds, by rw [after, hp, left_of_ok _ _ _ _ hq]⟩
  | error e ts ds hds hq hp => exact ⟨ds, hds, by rw [after, hp, left_of_error _ _ _ _ hq]⟩

theorem fresh_eq (limit : ℕ) (c : Call) : c.fresh limit = c.parser limit :=
  funext fun ts => c.outcome_eq (ofTokens limit ts) rfl

/-- a call leaves a suffix of the tokens -/
theorem parser_left (limit : ℕ) (c : Call) (ts : List Token) : left (c.parser limit) ts <:+ ts := by
  cases c with
  | expr => exact exprWithin_left limit limit ts
  | action => exact (action_left limit ts).trans (List.tail_suffix ts)
  | program => exact (actionsAfter_left limit #[] ts).trans (List.tail_suffix ts)

theorem parser_stops (limit : ℕ) (c : Call) (ts rest : List Token) (e : ParseError)
    (h : c.parser limit ts = .error e rest) : Stops (c.parser limit) ts e rest := by
  cases c with
  | expr => exact exprWithin_stops limit limit ts rest e h
  | action => exact action_stops limit ts rest e h
  | program => exact actionsAfter_stops limit #[] ts rest e h

end Call

/-- the program that tokens spell is the one that a fresh reader answers with -/
theorem program_ofTokens (limit : ℕ) (ts : List Token) :
    Program.ofTokens limit ts =
      match Call.program.fresh limit ts with
      | .ok p _ => .ok p
      | .error e _ => .error e := by
  rw [Call.fresh_eq]
  rfl

def calls (r : Reader) (cs : List Call) : Reader := cs.foldl (fun r c => c.after r) r

/-- a reader over the tokens `ts` that is between two calls -/
structure Ready (limit : ℕ) (ts : List Token) (r : Reader) : Prop where
  limit_eq : r.limit = limit
  depth_eq : r.depth = 0
  depths_le : ∀ d ∈ r.depths, d ≤ limit
  suffix : r.tokens <:+ ts

theorem ofTokens_ready (limit : ℕ) (ts : List Token) : Ready limit ts (ofTokens limit ts) :=
  ⟨rfl, rfl, by simp [ofTokens], List.suffix_refl ts⟩

theorem after_ready (limit : ℕ) (ts : List Token) (r : Reader) (c : Call) (h : Ready limit ts r) :
    Ready limit ts (c.after r) := by
  obtain ⟨ds, hds, hafter⟩ := c.after_eq r h.depth_eq
  rw [hafter]
  refine ⟨h.limit_eq, h.depth_eq, fun d hd => ?_, (c.parser_left r.limit r.tokens).trans h.suffix⟩
  rcases List.mem_append.1 hd with hd | hd
  · exact (hds d hd).trans h.limit_eq.le
  · exact h.depths_le d hd

theorem calls_ready (limit : ℕ) (ts : List Token) (r : Reader) (cs : List Call) (h : Ready limit ts r) :
    Ready limit ts (r.calls cs) := by
  induction cs generalizing r with
  | nil => exact h
  | cons c cs ih => exact ih (c.after r) (after_ready limit ts r c h)

/-- **Reuse after failures.** After any calls on a fresh reader, failures ignored:
- the depth is 0, it was never set to more than the limit, and a suffix of the tokens is left;
- the next call answers what it answers on a fresh reader over the tokens that are left, and leaves the same;
- an expression or an action is read off the front of the tokens exactly when these spell it within the limit, and takes
  one token for each node, and one or two more; a program is read exactly when all of the tokens spell it;
- a call that fails leaves the tokens behind the one at fault, or that one and those behind it if it is a marker that
  comes too early, or none if the tokens ran out;
- an action and a program take at least one token if there is one. -/
theorem calls_reuse (limit : ℕ) (ts : List Token) (cs : List Call) :
    let r := (ofTokens limit ts).calls cs
    Ready limit ts r ∧
    (∀ c : Call, c.outcome r = c.fresh limit r.tokens) ∧
    (∀ (e : Expr) (rest : List Token), Call.expr.outcome r = .ok e rest ↔
      ∃ pre, r.tokens = pre ++ rest ∧ pre.length = e.size ∧ e.Spelling (pre.map Token.lexeme) ∧ e.nesting ≤ limit) ∧
    (∀ (a : Action) (rest : List Token), Call.action.outcome r = .ok a rest ↔
      ∃ pre, r.tokens = pre ++ rest ∧ pre.length = a.size ∧ a.Spelling (pre.map Token.lexeme) ∧
        a.expr.nesting ≤ limit) ∧
    (∀ (p : Program) (rest : List Token), Call.program.outcome r = .ok p rest ↔
      rest = [] ∧ p.Spelling (r.tokens.map Token.lexeme) ∧ ∀ a ∈ p, a.expr.nesting ≤ limit) ∧
    (∀ (c : Call) (e : ParseError) (rest : List Token), c.outcome r = .error e rest →
      Stops (c.fresh limit) r.tokens e rest) ∧
    ∀ (t : Token) (post : List Token), r.tokens = t :: post →
      (Call.action.after r).tokens <:+ post ∧ (Call.program.after r).tokens <:+ post := by
  intro r
  have hr : Ready limit ts r := calls_ready limit ts _ cs (ofTokens_ready limit ts)
  have hout : ∀ c : Call, c.outcome r = c.parser limit r.tokens := by
    intro c
    rw [c.outcome_eq r hr.depth_eq, hr.limit_eq]
  have hafter : ∀ c : Call, (c.after r).tokens = left (c.parser limit) r.tokens := by
    intro c
    obtain ⟨ds, -, h⟩ := c.after_eq r hr.depth_eq
    rw [h, hr.limit_eq]
    rfl
  refine ⟨hr, fun c => ?_, fun e rest => ?_, fun a rest => ?_, fun p rest => ?_, fun c e rest h => ?_,
    fun t post h => ⟨?_, ?_⟩⟩
  · rw [hout, Call.fresh_eq]
  · rw [hout]
    exact exprWithin_eq_ok_iff limit limit r.tokens rest e
  · rw [hout]
    exact action_eq_ok_iff limit r.tokens rest a
  · rw [hout]
    exact program_eq_ok_iff limit r.tokens rest p
  · rw [hout] at h
    rw [Call.fresh_eq]
    exact c.parser_stops limit r.tokens rest e h
  · rw [hafter, h]
    exact action_left limit (t :: post)
  · rw [hafter, h]
    exact actionsAfter_left limit #[] (t :: post)

/-- the limit stops the first call at its third operator, and the second one has all of the limit again -/
example : ((ofTokens 2 (["!", "!", "!", "+", "$", "4", "1"].map word)).calls [.expr, .expr]).depths =
    [0, 1, 2, 1, 0, 1, 2, 1, 0] := by
  decide +kernel

end PolishCalc.Reader
