/-
Computations in a row, and loops that nothing bounds.

Parsers, actions and instructions keep their state when they fail. A computation of this kind in two steps is taken
apart here once: by what the first step does, or by what the whole has done.

A loop goes from state to state, turn by turn, until a turn is the last one. Nothing says that there is a last one:
`LoopEnds turn s a` says that the loop that is at `s` comes to an end, and to the result `a`. `runLoop` takes the turns
as long as each of them leaves less than it found. A turn that leaves as much as it found is expected to come back for
ever, so there the run is given up.

- `bind_of_ok`, `bind_of_error`, `bind_eq_ok_iff`, `bind_eq_error_iff`: two steps in a row;
- `runLoop_of_done`, `runLoop_of_again`: one turn of a run;
- `loopEnds_of_runLoop`, `runLoop_eq_none`: a run comes to what the loop comes to, so an endless loop is given up;
- `not_loopEnds`: a loop that keeps an invariant, and never ends where it holds, has no end;
- `runLoop_eq_some_iff`: a run finds every end if only endless loops are given up.
-/

namespace PolishCalc

/-! ## Sequencing -/

section

variable {ε σ α β : Type}

theorem bind_of_ok (x : EStateM ε σ α) (f : α → EStateM ε σ β) (s t : σ) (a : α) (h : x s = .ok a t) :
    (x >>= f) s = f a t := by
  simp only [bind, EStateM.bind, h]

theorem bind_of_error (x : EStateM ε σ α) (f : α → EStateM ε σ β) (s t : σ) (e : ε) (h : x s = .error e t) :
    (x >>= f) s = .error e t := by
  simp only [bind, EStateM.bind, h]

theorem bind_eq_ok_iff (x : EStateM ε σ α) (f : α → EStateM ε σ β) (s u : σ) (b : β) :
    (x >>= f) s = .ok b u ↔ ∃ a t, x s = .ok a t ∧ f a t = .ok b u := by
  cases h : x s with
  | ok a t => simp [bind_of_ok x f s t a h, and_assoc]
  | error e t => simp [bind_of_error x f s t e h]

theorem bind_eq_error_iff (x : EStateM ε σ α) (f : α → EStateM ε σ β) (s u : σ) (e : ε) :
    (x >>= f) s = .error e u ↔ x s = .error e u ∨ ∃ a t, x s = .ok a t ∧ f a t = .error e u := by
  cases h : x s with
  | ok a t => simp [bind_of_ok x f s t a h, and_assoc]
  | error e t => simp [bind_of_error x f s t e h]

end

/-! ## Loops -/

/-- what one turn of a loop comes to: the state that the next turn starts from, or the result of the loop -/
inductive Turn (σ α : Type) where
  | again (s : σ)
  | done (a : α)

section

variable {σ α : Type} (left : σ → Nat) (turn : σ → Option (Turn σ α))

/-- the loop comes to an end; a turn without a result never ends itself -/
inductive LoopEnds : σ → α → Prop
  | done (s : σ) (a : α) (h : turn s = some (.done a)) : LoopEnds s a
  | again (s s' : σ) (a : α) (h : turn s = some (.again s')) (h' : LoopEnds s' a) : LoopEnds s a

/-- takes turn after turn, as long as there is less and less left to do -/
@[specialize]
def runLoop (s : σ) : Option α :=
  let n := left s
  match turn s with
  | none => none
  | some (.done a) => some a
  | some (.again s') => if _h : left s' < n then runLoop s' else none
termination_by left s

theorem runLoop_of_none (s : σ) (h : turn s = none) : runLoop left turn s = none := by
  rw [runLoop, h]

theorem runLoop_of_done (s : σ) (a : α) (h : turn s = some (.done a)) : runLoop left turn s = some a := by
  rw [runLoop, h]

theorem runLoop_of_again (s s' : σ) (h : turn s = some (.again s')) (hlt : left s' < left s) :
    runLoop left turn s = runLoop left turn s' := by
  rw [runLoop, h]
  exact dif_pos hlt

/-- what a run comes to is what the loop comes to -/
theorem loopEnds_of_runLoop (s : σ) (a : α) (h : runLoop left turn s = some a) : LoopEnds turn s a := by
  fun_induction runLoop left turn s with
  | case1 s hturn => cases h
  | case2 s b hturn =>
    cases h
    exact .done s a hturn
  | case3 s n s' hturn hlt ih => exact .again s s' a hturn (ih h)
  | case4 s n s' hturn hge => cases h

/-- an endless loop is given up -/
theorem runLoop_eq_none (s : σ) (h : ∀ a, ¬ LoopEnds turn s a) : runLoop left turn s = none := by
  rw [Option.eq_none_iff_forall_ne_some]
  intro a ha
  exact h a (loopEnds_of_runLoop left turn s a ha)

/-- a loop that keeps an invariant, and never ends where it holds, has no end -/
theorem not_loopEnds (keeps : σ → Prop) (h : ∀ s, keeps s → ∃ s', turn s = some (.again s') ∧ keeps s') (s : σ)
    (hs : keeps s) (a : α) : ¬ LoopEnds turn s a := by
  intro hends
  induction hends with
  | done s a hturn =>
    obtain ⟨s', hs', -⟩ := h s hs
    rw [hs'] at hturn
    cases hturn
  | again s t a hturn _ ih =>
    obtain ⟨s', hs', hkeeps⟩ := h s hs
    rw [hs'] at hturn
    cases hturn
    exact ih hkeeps

/-- **The end of a loop.** A run finds every end of the loop if only endless loops are given up. -/
theorem runLoop_eq_some_iff
    (hgiven : ∀ s s', turn s = some (.again s') → ¬ left s' < left s → ∀ a, ¬ LoopEnds turn s' a) (s : σ) (a : α) :
    runLoop left turn s = some a ↔ LoopEnds turn s a := by
  constructor
  · exact loopEnds_of_runLoop left turn s a
  · intro h
    induction h with
    | done s a hturn => exact runLoop_of_done left turn s a hturn
    | again s s' a hturn hends ih =>
      by_cases hlt : left s' < left s
      · rw [runLoop_of_again left turn s s' hturn hlt]
        exact ih
      · exact absurd hends (hgiven s s' hturn hlt a)

end

end PolishCalc
