/-!
# Runs with their history

A run of a labelled transition system is recorded as the list of its moves,
latest first: each with the state it was made in and its label.  What has to hold
of a run is then a condition on its moves, and an invariant may be kept under a
condition on the moves as well.
-/

namespace History

variable {σ ε : Type} {step : σ → ε → σ → Prop} {start : σ}

/-- `Run step start moves s`: the moves lead from `start` to `s`. -/
inductive Run (step : σ → ε → σ → Prop) (start : σ) : List (σ × ε) → σ → Prop
  | start : Run step start [] start
  | next {moves : List (σ × ε)} {s s' : σ} {e : ε} (before : Run step start moves s)
      (move : step s e s') : Run step start ((s, e) :: moves) s'

/-- A single move. -/
theorem Run.single {s s' : σ} {e : ε} (move : step s e s') : Run step s [(s, e)] s' :=
  Run.next Run.start move

/-- Runs compose; the later moves come first. -/
theorem Run.trans {moves moves' : List (σ × ε)} {s s' : σ} (before : Run step start moves s)
    (after : Run step s moves' s') : Run step start (moves' ++ moves) s' := by
  induction after with
  | start => exact before
  | next _ move ih => exact Run.next ih move

/-- **Run lemma.**  An invariant that every allowed move keeps holds at the end
of a run of allowed moves and in every state a move was made in. -/
theorem Run.invariant {inv : σ → Prop} {allowed : σ → ε → Prop} (hstart : inv start)
    (hstep : ∀ s e s', inv s → allowed s e → step s e s' → inv s')
    {moves : List (σ × ε)} {s : σ} (run : Run step start moves s)
    (hallowed : ∀ s e, (s, e) ∈ moves → allowed s e) :
    inv s ∧ ∀ s' e, (s', e) ∈ moves → inv s' ∧ ∃ s'', step s' e s'' := by
  induction run with
  | start => exact ⟨hstart, fun s' e hmem => absurd hmem List.not_mem_nil⟩
  | @next moves s s' e _ move ih =>
      obtain ⟨hlast, hall⟩ := ih fun s e hmem => hallowed s e (List.mem_cons_of_mem _ hmem)
      have hhere : allowed s e := hallowed s e List.mem_cons_self
      refine ⟨hstep s e s' hlast hhere move, fun s1 e1 hmem => ?_⟩
      rcases List.mem_cons.mp hmem with heq | hearlier
      · cases heq
        exact ⟨hlast, s', move⟩
      · exact hall s1 e1 hearlier

/-- The run lemma for an invariant that every move keeps. -/
theorem Run.always {inv : σ → Prop} (hstart : inv start)
    (hstep : ∀ s e s', inv s → step s e s' → inv s') {moves : List (σ × ε)} {s : σ}
    (run : Run step start moves s) :
    inv s ∧ ∀ s' e, (s', e) ∈ moves → inv s' ∧ ∃ s'', step s' e s'' :=
  Run.invariant hstart (fun s e s' hinv (_ : True) move => hstep s e s' hinv move) run
    fun _ _ _ => trivial

/-- A run up to one of its moves, and the rest of it. -/
theorem Run.split {later earlier : List (σ × ε)} {s s' : σ} {e : ε}
    (run : Run step start (later ++ (s', e) :: earlier) s) :
    Run step start earlier s' ∧ ∃ s'', step s' e s'' ∧ Run step s'' later s := by
  induction later generalizing s with
  | nil =>
      cases run with
      | next before move => exact ⟨before, s, move, Run.start⟩
  | cons _ later ih =>
      cases run with
      | next before last =>
          obtain ⟨hearlier, s'', move, hlater⟩ := ih before
          exact ⟨hearlier, s'', move, Run.next hlater last⟩

end History
