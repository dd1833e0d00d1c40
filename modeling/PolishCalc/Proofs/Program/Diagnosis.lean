/-
Parse errors name the earliest token at which the tokens read so far are beyond repair.

A parser that is given more and more tokens either completes, or still can be completed by tokens to come, or is dead:
no tokens to come make it a program any more. `Decides p ts` says that `p` on `ts` tells these three apart as early as
possible:
- `Decides.reads`: it takes a block of tokens from the front, whatever follows the block;
- `Decides.starves`: the tokens run out, and some more would complete them;
- `Decides.rejects`: it fails at a token, whatever follows that token, and the tokens before it can be completed.

Results:
- `exprWithin_decides`, `action_decides`: the parsers of expressions and actions decide all tokens;
- `exprWithin_relaxes`, `action_relaxes`, `actionsAfter_relaxes`: with a larger nesting limit a parser answers the same,
  unless it ran into the smaller limit;
- `ofTokens_error_earliest`: a failed parse of a whole program names the earliest dead token, or it has run out of
  tokens that can be completed; and a larger limit changes no other answer than an exceeded limit.
-/
import Mathlib.Tactic
import PolishCalc.Proofs.Program.Grammar

namespace PolishCalc

open Lexeme PolishCalc.Parser

namespace Parser

variable {α β : Type}

/-! ## Parsers that decide early -/

/-- some tokens behind `pre` complete it -/
def Completable (p : Parser α) (pre : List Token) : Prop := ∃ more a, Reads p (pre ++ more) a

/-- the tokens that a failure at `t` leaves: a marker inside an unfinished action stays, every other token is taken -/
def leftAt (e : ParseError) (t : Token) (post : List Token) : List Token :=
  if e.kind = .prematureEnd then t :: post else post

/-- fails because the tokens run out -/
structure Starves (p : Parser α) (ts : List Token) (e : ParseError) : Prop where
  kind : e.kind = .prematureEnd
  span : e.span = none
  found : e.found = none
  run : p ts = .error e []

/-- fails at the token `t` behind `pre`, whatever follows it -/
structure Rejects (p : Parser α) (pre : List Token) (t : Token) (e : ParseError) : Prop where
  span : e.span = some t.span
  found : e.found = some t.lexeme
  run : ∀ post, p (pre ++ t :: post) = .error e (leftAt e t post)

/-- what a run on `ts` comes to -/
inductive Decides (p : Parser α) (ts : List Token) : Prop
  | reads (pre post : List Token) (a : α) (h : ts = pre ++ post) (hr : Reads p pre a)
  | starves (e : ParseError) (hs : Starves p ts e) (hc : Completable p ts)
  | rejects (pre post : List Token) (t : Token) (e : ParseError) (h : ts = pre ++ t :: post) (hr : Rejects p pre t e)
      (hc : Completable p pre)

theorem Completable.behind (p q : Parser α) (pre mid : List Token) (hrun : ∀ post, p (pre ++ post) = q post)
    (h : Completable q mid) : Completable p (pre ++ mid) := by
  obtain ⟨more, a, hr⟩ := h
  refine ⟨more, a, fun post => ?_⟩
  rw [List.append_assoc, List.append_assoc, hrun, ← List.append_assoc]
  exact hr post

theorem Completable.bind (p : Parser α) (f : α → Parser β) (pre : List Token) (hp : Completable p pre)
    (hf : ∀ a, Completable (f a) []) : Completable (p >>= f) pre := by
  obtain ⟨more, a, hr⟩ := hp
  obtain ⟨more', b, hr'⟩ := hf a
  refine ⟨more ++ more', b, ?_⟩
  rw [← List.append_assoc]
  exact Reads.bind p f _ _ a b hr hr'

theorem completable_pure (a : α) : Completable (pure a) [] := ⟨[], a, fun _ => rfl⟩

theorem decides_pure (a : α) (ts : List Token) : Decides (pure a) ts := .reads [] ts a rfl fun _ => rfl

/-- a parser that has taken the tokens `pre` decides as the parser does that goes on -/
theorem Decides.behind (p q : Parser α) (pre ts : List Token) (hrun : ∀ post, p (pre ++ post) = q post)
    (h : Decides q ts) : Decides p (pre ++ ts) := by
  cases h with
  | reads mid post a h hr =>
    refine .reads (pre ++ mid) post a (by rw [h, List.append_assoc]) fun post => ?_
    rw [List.append_assoc, hrun]
    exact hr post
  | starves e hs hc =>
    exact .starves e ⟨hs.kind, hs.span, hs.found, by rw [hrun]; exact hs.run⟩ (hc.behind p q _ _ hrun)
  | rejects mid post t e h hr hc =>
    refine .rejects (pre ++ mid) post t e (by rw [h, List.append_assoc]) ⟨hr.span, hr.found, fun post => ?_⟩
      (hc.behind p q _ _ hrun)
    rw [List.append_assoc, hrun]
    exact hr.run post

theorem Decides.bind (p : Parser α) (f : α → Parser β) (ts : List Token) (hp : Decides p ts)
    (hf : ∀ a ts, Decides (f a) ts) (hc : ∀ a, Completable (f a) []) : Decides (p >>= f) ts := by
  cases hp with
  | reads pre post a h hr =>
    rw [h]
    exact (hf a post).behind (p >>= f) (f a) pre post fun post => bind_of_ok _ _ _ _ _ (hr post)
  | starves e hs hcp =>
    exact .starves e ⟨hs.kind, hs.span, hs.found, bind_of_error _ _ _ _ _ hs.run⟩ (hcp.bind p f _ hc)
  | rejects pre post t e h hr hcp =>
    exact .rejects pre post t e h ⟨hr.span, hr.found, fun post => bind_of_error _ _ _ _ _ (hr.run post)⟩
      (hcp.bind p f _ hc)

theorem decides_nil (p : Parser α) (labels : List String) (h : p [] = .error (.prematureEnd labels) [])
    (hc : Completable p []) : Decides p [] :=
  .starves _ ⟨rfl, rfl, rfl, h⟩ hc

theorem decides_accept (p : Parser α) (t : Token) (ts : List Token) (a : α) (h : ∀ post, p (t :: post) = .ok a post) :
    Decides p (t :: ts) :=
  .reads [t] ts a rfl h

theorem decides_reject (p : Parser α) (t : Token) (ts : List Token) (e : ParseError) (hspan : e.span = some t.span)
    (hfound : e.found = some t.lexeme) (h : ∀ post, p (t :: post) = .error e (leftAt e t post))
    (hc : Completable p []) : Decides p (t :: ts) :=
  .rejects [] ts t e rfl ⟨hspan, hfound, h⟩ hc

theorem Decides.of_ok (p : Parser α) (ts rest : List Token) (a : α) (h : Decides p ts) (hok : p ts = .ok a rest) :
    ∃ pre, ts = pre ++ rest ∧ Reads p pre a := by
  cases h with
  | reads pre post b h hr =>
    rw [h, hr post] at hok
    cases hok
    exact ⟨pre, h, hr⟩
  | starves e hs _ =>
    rw [hs.run] at hok
    cases hok
  | rejects pre post t e h hr _ =>
    rw [h, hr.run post] at hok
    cases hok

theorem Decides.of_error (p : Parser α) (ts rest : List Token) (e : ParseError) (h : Decides p ts)
    (herr : p ts = .error e rest) :
    (Starves p ts e ∧ Completable p ts) ∨
      ∃ pre t post, ts = pre ++ t :: post ∧ Rejects p pre t e ∧ Completable p pre := by
  cases h with
  | reads pre post b h hr =>
    rw [h, hr post] at herr
    cases herr
  | starves e' hs hc =>
    rw [hs.run] at herr
    cases herr
    exact Or.inl ⟨hs, hc⟩
  | rejects pre post t e' h hr hc =>
    rw [h, hr.run post] at herr
    cases herr
    exact Or.inr ⟨pre, t, post, h, hr, hc⟩

/-! ## Expressions and actions decide early -/

def word (s : String) : Token := ⟨s, .between 1 .zero .zero⟩

theorem reads_zero (limit room : ℕ) : Reads (exprWithin limit room) [word "0"] (.const 0) := fun post =>
  exprWithin_literal limit room 0 (word "0") post ((literal?_eq_some_iff "0" 0).1 (by decide))

theorem exprWithin_completable (limit room : ℕ) : Completable (exprWithin limit room) [] :=
  ⟨[word "0"], .const 0, reads_zero limit room⟩

theorem exprWithin_decides (limit room : ℕ) (ts : List Token) : Decides (exprWithin limit room) ts := by
  have hc := exprWithin_completable limit
  induction room using Nat.strong_induction_on generalizing ts with
  | _ room ih =>
    cases ts with
    | nil => exact decides_nil _ _ (exprWithin_nil _ _) (hc room)
    | cons t ts =>
      rcases class_cases t.lexeme with hm | ⟨op, ho⟩ | ⟨op, ho⟩ | hn | ⟨v, hv⟩ | ⟨hr, hi, hl⟩
      · exact decides_reject _ t ts _ rfl rfl (fun post => exprWithin_marker limit room t post hm) (hc room)
      · cases room with
        | zero => exact decides_reject _ t ts _ rfl rfl (fun post => exprWithin_unary_zero limit op t post ho) (hc 0)
        | succ room =>
          refine Decides.behind _ _ [t] ts (fun post => exprWithin_unary limit room op t post ho) ?_
          exact Decides.bind _ _ _ (ih room (by omega) ts) (fun _ ts => decides_pure _ ts) fun _ => completable_pure _
      · cases room with
        | zero => exact decides_reject _ t ts _ rfl rfl (fun post => exprWithin_binary_zero limit op t post ho) (hc 0)
        | succ room =>
          refine Decides.behind _ _ [t] ts (fun post => exprWithin_binary limit room op t post ho) ?_
          refine Decides.bind _ _ _ (ih room (by omega) ts) (fun l ts => ?_) fun l => ?_
          · exact Decides.bind _ _ _ (ih room (by omega) ts) (fun _ ts => decides_pure _ ts) fun _ => completable_pure _
          · exact (hc room).bind _ _ _ fun _ => completable_pure _
      · exact decides_accept _ t ts _ fun post => exprWithin_name limit room t post hn
      · exact decides_accept _ t ts _ fun post => exprWithin_literal limit room v t post hv
      · exact decides_reject _ t ts _ rfl rfl (fun post => exprWithin_illegal limit room t post hr hi hl) (hc room)

theorem action_completable (limit : ℕ) : Completable (action limit) [] :=
  ⟨[word printMarker, word "0"], .print (.const 0), fun post => by
    rw [List.nil_append, List.cons_append, action_print _ _ _ rfl]
    exact bind_of_ok _ _ _ _ _ (reads_zero limit limit post)⟩

/-- an assignment is completed by any name and any expression -/
theorem action_completable_assign (limit : ℕ) (t : Token) (h : t.lexeme = assignMarker) :
    Completable (action limit) [t] :=
  ⟨[word "x", word "0"], .assign "x" (.const 0), fun post => by
    have hx : IsName (word "x").lexeme := (isIdentifier_iff "x").1 (by decide)
    rw [List.cons_append, List.cons_append, List.nil_append, List.cons_append, action_assign _ _ _ _ h hx]
    exact bind_of_ok _ _ _ _ _ (reads_zero limit limit post)⟩

theorem action_decides (limit : ℕ) (ts : List Token) : Decides (action limit) ts := by
  have hc := action_completable limit
  have hexpr : ∀ (f : Expr → Action) (ts : List Token), Decides (expr limit >>= fun e => pure (f e)) ts :=
    fun f ts => Decides.bind _ _ ts (exprWithin_decides limit limit ts) (fun _ ts => decides_pure _ ts)
      fun _ => completable_pure _
  cases ts with
  | nil => exact decides_nil _ _ (action_nil limit) hc
  | cons t ts =>
    by_cases ha : t.lexeme = assignMarker
    · cases ts with
      | nil =>
        exact .starves _ ⟨rfl, rfl, rfl, action_assign_nil limit t ha⟩ (action_completable_assign limit t ha)
      | cons target ts =>
        by_cases hn : IsName target.lexeme
        · exact Decides.behind _ _ [t, target] ts (fun post => action_assign limit t target post ha hn) (hexpr _ ts)
        · -- the marker is taken, so the name is what can no longer be completed
          have hrejects : Rejects (action limit) [t] target (.illegalTarget target) :=
            ⟨rfl, rfl, fun post => action_illegalTarget limit t target post ha hn⟩
          exact .rejects [t] ts target _ rfl hrejects (action_completable_assign limit t ha)
    · by_cases hp : t.lexeme = printMarker
      · exact Decides.behind _ _ [t] ts (fun post => action_print limit t post hp) (hexpr _ ts)
      · exact decides_reject _ t ts _ rfl rfl (fun post => action_illegal limit t post ha hp) hc

/-! ## Whole programs -/

/-- an action that can be completed is the last one of a program -/
theorem actionsAfter_completable (limit : ℕ) (acc : Array Action) (pre : List Token)
    (h : Completable (action limit) pre) : ∃ more p, actionsAfter limit acc (pre ++ more) = .ok p [] := by
  obtain ⟨more, a, hr⟩ := h
  refine ⟨more, (acc.push a).toList, ?_⟩
  rw [← List.append_nil (pre ++ more), actionsAfter_of_reads _ _ _ _ _ hr]
  exact actionsAfter_nil limit (acc.push a)

theorem actionsAfter_of_rejects (limit : ℕ) (acc : Array Action) (pre : List Token) (t : Token) (e : ParseError)
    (h : Rejects (action limit) pre t e) : Rejects (actionsAfter limit acc) pre t e := by
  refine ⟨h.span, h.found, fun post => ?_⟩
  cases pre with
  | nil => exact actionsAfter_of_error _ _ _ _ _ _ (h.run post)
  | cons v pre => exact actionsAfter_of_error _ _ _ _ _ _ (h.run post)

/-- a program fails as one of its actions does: the tokens run out, or it fails at a token whatever follows it -/
theorem actionsAfter_fails (limit : ℕ) (acc : Array Action) (ts rest : List Token) (e : ParseError)
    (h : actionsAfter limit acc ts = .error e rest) :
    (Starves (actionsAfter limit acc) ts e ∧ ∃ more p, actionsAfter limit acc (ts ++ more) = .ok p []) ∨
      ∃ pre t post, ts = pre ++ t :: post ∧ Rejects (actionsAfter limit acc) pre t e ∧
        ∃ more p, actionsAfter limit acc (pre ++ more) = .ok p [] := by
  fun_induction actionsAfter limit acc ts with
  | case1 acc => cases h
  | case2 acc t ts a mid ha ih =>
    -- the first action is read whatever follows it, so the later tokens alone decide about the rest
    obtain ⟨done, hts, hr⟩ := (action_decides limit (t :: ts)).of_ok _ _ _ _ ha
    have hstep : ∀ post, actionsAfter limit acc (done ++ post) = actionsAfter limit (acc.push a) post :=
      fun post => actionsAfter_of_reads limit acc done post a hr
    rcases ih h with ⟨hs, more, p, hp⟩ | ⟨pre, u, post, rfl, hrej, more, p, hp⟩
    · refine Or.inl ⟨⟨hs.kind, hs.span, hs.found, ?_⟩, more, p, ?_⟩
      · rw [hts, hstep]
        exact hs.run
      · rw [hts, List.append_assoc, hstep]
        exact hp
    · refine Or.inr ⟨done ++ pre, u, post, by rw [hts, List.append_assoc], ⟨hrej.span, hrej.found, fun post' => ?_⟩,
        more, p, ?_⟩
      · rw [List.append_assoc, hstep]
        exact hrej.run post'
      · rw [List.append_assoc, hstep]
        exact hp
  | case3 acc t ts e' mid ha =>
    cases h
    rcases (action_decides limit (t :: ts)).of_error _ _ _ _ ha with
      ⟨hs, hc⟩ | ⟨pre, u, post, hts, hr, hc⟩
    · have hrun : actionsAfter limit acc (t :: ts) = .error e [] := actionsAfter_of_error _ _ _ _ _ _ hs.run
      exact Or.inl ⟨⟨hs.kind, hs.span, hs.found, hrun⟩, actionsAfter_completable limit acc _ hc⟩
    · exact Or.inr ⟨pre, u, post, hts, actionsAfter_of_rejects limit acc pre u e hr,
        actionsAfter_completable limit acc _ hc⟩

theorem actionsAfter_error (limit : ℕ) (acc : Array Action) (ts rest : List Token) (e : ParseError)
    (h : actionsAfter limit acc ts = .error e rest) :
    (e.kind = .prematureEnd ∧ e.span = none ∧ ∃ more p, actionsAfter limit acc (ts ++ more) = .ok p []) ∨
      ∃ pre t post, ts = pre ++ t :: post ∧ e.span = some t.span ∧ e.found = some t.lexeme ∧
        (∃ more p, actionsAfter limit acc (pre ++ more) = .ok p []) ∧
        ∀ post', ∃ rest', actionsAfter limit acc (pre ++ t :: post') = .error e rest' := by
  rcases actionsAfter_fails limit acc ts rest e h with ⟨hs, hc⟩ | ⟨pre, t, post, hts, hr, hc⟩
  · exact Or.inl ⟨hs.kind, hs.span, hc⟩
  · exact Or.inr ⟨pre, t, post, hts, hr.span, hr.found, hc, fun post' => ⟨_, hr.run post'⟩⟩

/-! ## Larger limits -/

/-- `q` answers what `p` answers, except where `p` ran into the nesting limit -/
def Relaxes (p q : Parser α) : Prop :=
  ∀ ts, q ts = p ts ∨ ∃ e rest, p ts = .error e rest ∧ e.kind = .nestingLimitExceeded

theorem Relaxes.bind (p q : Parser α) (f : α → Parser β) (g : α → Parser β) (h : Relaxes p q)
    (hf : ∀ a, Relaxes (f a) (g a)) : Relaxes (p >>= f) (q >>= g) := by
  intro ts
  rcases h ts with hq | ⟨e, rest, hp, he⟩
  · cases hp : p ts with
    | ok a rest =>
      rw [hp] at hq
      rw [bind_of_ok _ _ _ _ _ hq, bind_of_ok _ _ _ _ _ hp]
      exact hf a rest
    | error e rest =>
      rw [hp] at hq
      rw [bind_of_error _ _ _ _ _ hq, bind_of_error _ _ _ _ _ hp]
      exact Or.inl rfl
  · exact Or.inr ⟨e, rest, bind_of_error _ _ _ _ _ hp, he⟩

theorem relaxes_refl (p : Parser α) : Relaxes p p := fun _ => Or.inl rfl

theorem exprWithin_relaxes (limit limit' room room' : ℕ) (h : room ≤ room') :
    Relaxes (exprWithin limit room) (exprWithin limit' room') := by
  induction room using Nat.strong_induction_on generalizing room' with
  | _ room ih =>
    intro ts
    cases ts with
    | nil => exact Or.inl (by rw [exprWithin_nil, exprWithin_nil])
    | cons t ts =>
      rcases class_cases t.lexeme with hm | ⟨op, ho⟩ | ⟨op, ho⟩ | hn | ⟨v, hv⟩ | ⟨hr, hi, hl⟩
      · exact Or.inl (by rw [exprWithin_marker _ _ _ _ hm, exprWithin_marker _ _ _ _ hm])
      · cases room with
        | zero => exact Or.inr ⟨_, _, exprWithin_unary_zero limit op t ts ho, rfl⟩
        | succ room =>
          obtain ⟨room', rfl⟩ : ∃ k, room' = k + 1 := ⟨room' - 1, by omega⟩
          rw [exprWithin_unary _ _ op _ _ ho, exprWithin_unary _ _ op _ _ ho]
          exact Relaxes.bind _ _ _ _ (ih room (by omega) room' (by omega)) (fun _ => relaxes_refl _) ts
      · cases room with
        | zero => exact Or.inr ⟨_, _, exprWithin_binary_zero limit op t ts ho, rfl⟩
        | succ room =>
          obtain ⟨room', rfl⟩ : ∃ k, room' = k + 1 := ⟨room' - 1, by omega⟩
          have hrec := ih room (by omega) room' (by omega)
          rw [exprWithin_binary _ _ op _ _ ho, exprWithin_binary _ _ op _ _ ho]
          refine Relaxes.bind _ _ _ _ hrec (fun l => ?_) ts
          exact Relaxes.bind _ _ _ _ hrec fun _ => relaxes_refl _
      · exact Or.inl (by rw [exprWithin_name _ _ _ _ hn, exprWithin_name _ _ _ _ hn])
      · exact Or.inl (by rw [exprWithin_literal _ _ v _ _ hv, exprWithin_literal _ _ v _ _ hv])
      · exact Or.inl (by rw [exprWithin_illegal _ _ _ _ hr hi hl, exprWithin_illegal _ _ _ _ hr hi hl])

theorem action_relaxes (limit limit' : ℕ) (h : limit ≤ limit') : Relaxes (action limit) (action limit') := by
  have hexpr : ∀ f : Expr → Action,
      Relaxes (expr limit >>= fun e => pure (f e)) (expr limit' >>= fun e => pure (f e)) :=
    fun f => Relaxes.bind _ _ _ _ (exprWithin_relaxes limit limit' limit limit' h) fun _ => relaxes_refl _
  intro ts
  cases ts with
  | nil => exact Or.inl rfl
  | cons t ts =>
    by_cases ha : t.lexeme = assignMarker
    · cases ts with
      | nil => exact Or.inl (by rw [action_assign_nil _ _ ha, action_assign_nil _ _ ha])
      | cons target ts =>
        by_cases hn : IsName target.lexeme
        · rw [action_assign _ _ _ _ ha hn, action_assign _ _ _ _ ha hn]
          exact hexpr _ ts
        · exact Or.inl (by rw [action_illegalTarget _ _ _ _ ha hn, action_illegalTarget _ _ _ _ ha hn])
    · by_cases hp : t.lexeme = printMarker
      · rw [action_print _ _ _ hp, action_print _ _ _ hp]
        exact hexpr _ ts
      · exact Or.inl (by rw [action_illegal _ _ _ ha hp, action_illegal _ _ _ ha hp])

theorem actionsAfter_relaxes (limit limit' : ℕ) (h : limit ≤ limit') (acc : Array Action) :
    Relaxes (actionsAfter limit acc) (actionsAfter limit' acc) := by
  intro ts
  fun_induction actionsAfter limit acc ts with
  | case1 acc => exact Or.inl (actionsAfter_nil limit' acc)
  | case2 acc t ts a rest ha ih =>
    rcases action_relaxes limit limit' h (t :: ts) with hq | ⟨e, rest', he, -⟩
    · rw [ha] at hq
      rw [actionsAfter_of_ok limit' acc _ _ _ hq]
      exact ih
    · rw [ha] at he
      cases he
  | case3 acc t ts e rest he =>
    rcases action_relaxes limit limit' h (t :: ts) with hq | ⟨e', rest', he', hk⟩
    · rw [he] at hq
      exact Or.inl (actionsAfter_of_error limit' acc t ts rest e hq)
    · rw [he] at he'
      cases he'
      exact Or.inr ⟨e, rest, rfl, hk⟩

end Parser

/-! ## The diagnosis of a failed parse -/

/-- the tokens spell a program that the limit allows -/
def Program.Parses (limit : ℕ) (ts : List Token) : Prop := ∃ p, Program.ofTokens limit ts = .ok p

theorem ofTokens_relaxes (limit limit' : ℕ) (h : limit ≤ limit') (ts : List Token) :
    Program.ofTokens limit' ts = Program.ofTokens limit ts ∨
      ∃ e, Program.ofTokens limit ts = .error e ∧ e.kind = .nestingLimitExceeded := by
  rcases actionsAfter_relaxes limit limit' h #[] ts with hq | ⟨e, rest, he, hk⟩
  · left
    rw [Program.ofTokens, Parser.program, hq]
    rfl
  · exact Or.inr ⟨e, (ofTokens_eq_error_iff limit ts e).2 ⟨rest, he⟩, hk⟩

/-- **Errors come at the earliest dead token.** An error without a place says that the tokens ran out: some more of
them would have made a program. An error with a place names a token such that the tokens before it are the start of a
program, but together with it they are not. A larger limit changes no answer but an exceeded limit. -/
theorem ofTokens_error_earliest (limit : ℕ) (ts : List Token) :
    (∀ e, Program.ofTokens limit ts = .error e →
      (e.span = none → e.kind = .prematureEnd ∧ ¬ Program.Parses limit ts ∧
        ∃ more, more ≠ [] ∧ Program.Parses limit (ts ++ more)) ∧
      ∀ s, e.span = some s → ∃ i t, ts[i]? = some t ∧ s = t.span ∧ e.found = some t.lexeme ∧
        (∃ more, Program.Parses limit (ts.take i ++ more)) ∧
        ∀ more, ¬ Program.Parses limit (ts.take (i + 1) ++ more)) ∧
    ∀ limit', limit ≤ limit' → Program.ofTokens limit' ts = Program.ofTokens limit ts ∨
      ∃ e, Program.ofTokens limit ts = .error e ∧ e.kind = .nestingLimitExceeded := by
  refine ⟨fun e he => ?_, fun limit' h => ofTokens_relaxes limit limit' h ts⟩
  have hno : ¬ Program.Parses limit ts := by
    rintro ⟨p, hp⟩
    rw [he] at hp
    cases hp
  obtain ⟨rest, hrun⟩ := (ofTokens_eq_error_iff limit ts e).1 he
  rcases actionsAfter_error limit #[] ts rest e hrun with
    ⟨hk, hs, more, p, hp⟩ | ⟨pre, t, post, rfl, hs, hf, ⟨more, p, hp⟩, hdead⟩
  · refine ⟨fun _ => ⟨hk, hno, more, ?_, p, (ofTokens_eq_ok_iff_run _ _ _).2 ⟨_, hp⟩⟩, fun s hsome => ?_⟩
    · rintro rfl
      rw [List.append_nil] at hp
      exact hno ⟨p, (ofTokens_eq_ok_iff_run _ _ _).2 ⟨_, hp⟩⟩
    · rw [hs] at hsome
      cases hsome
  · refine ⟨fun hnone => ?_, fun s hsome => ?_⟩
    · rw [hs] at hnone
      cases hnone
    · rw [hs] at hsome
      cases hsome
      refine ⟨pre.length, t, by simp, rfl, hf, ⟨more, p, ?_⟩, ?_⟩
      · rw [List.take_left]
        exact (ofTokens_eq_ok_iff_run _ _ _).2 ⟨_, hp⟩
      · rintro more ⟨q, hq⟩
        obtain ⟨rest', hrest'⟩ := hdead more
        have htake : (pre ++ t :: post).take (pre.length + 1) ++ more = pre ++ t :: more := by
          simp [List.take_append]
        rw [htake, (ofTokens_eq_error_iff limit _ e).2 ⟨rest', hrest'⟩] at hq
        cases hq

end PolishCalc
