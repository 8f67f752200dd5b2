import SimplrOS.History
import Mathlib.Logic.Relation

/-!
# Programs that talk to a world

A program makes calls and goes on with the replies, and it may repeat a call until the
reply lets it go on.  The world answers and also moves on its own in between.  Both are
relations, so a world may leave open what it does.

`Proves` is a proof outline of a program: an assertion in front of every call that the
world cannot break, with which the call is allowed and can be answered.  A program with an
outline makes allowed calls only, ends in its postcondition, and is never stuck: from
wherever a run has led, it can be carried to its end.
-/

namespace Interaction

open History

variable {Call : Type} {Reply : Call → Type} {σ α : Type}

/-- A program over some calls. -/
inductive Prog (Call : Type) (Reply : Call → Type) (α : Type)
  | ret (a : α)
  | call (c : Call) (next : Reply c → Prog Call Reply α)
  | poll (c : Call) (stop : Reply c → Bool) (next : Prog Call Reply α)

/-- How a world may answer, and how it may move on its own. -/
structure World (Call : Type) (Reply : Call → Type) (σ : Type) where
  answer : σ → (c : Call) → Reply c → σ → Prop
  moves : σ → σ → Prop

/-- A call with its reply. -/
abbrev Exchange (Call : Type) (Reply : Call → Type) : Type := (c : Call) × Reply c

/-- A move of the program, or `none` for a move of the world. -/
inductive Step (W : World Call Reply σ) :
    Prog Call Reply α × σ → Option (Exchange Call Reply) → Prog Call Reply α × σ → Prop
  | call {c : Call} {next : Reply c → Prog Call Reply α} {s s' : σ} {r : Reply c}
      (h : W.answer s c r s') : Step W (.call c next, s) (some ⟨c, r⟩) (next r, s')
  | again {c : Call} {stop : Reply c → Bool} {next : Prog Call Reply α} {s s' : σ} {r : Reply c}
      (h : W.answer s c r s') (hstop : stop r = false) :
      Step W (.poll c stop next, s) (some ⟨c, r⟩) (.poll c stop next, s')
  | stop {c : Call} {stop : Reply c → Bool} {next : Prog Call Reply α} {s s' : σ} {r : Reply c}
      (h : W.answer s c r s') (hstop : stop r = true) :
      Step W (.poll c stop next, s) (some ⟨c, r⟩) (next, s')
  | world {q : Prog Call Reply α} {s s' : σ} (h : W.moves s s') : Step W (q, s) none (q, s')

/-- The world has answered every call. -/
theorem Step.answered {W : World Call Reply σ} {t t' : Prog Call Reply α × σ}
    {x : Exchange Call Reply} (move : Step W t (some x) t') : W.answer t.2 x.1 x.2 t'.2 := by
  cases move with
  | call hanswer => exact hanswer
  | again hanswer hreply => exact hanswer
  | stop hanswer hreply => exact hanswer

/-- The world cannot break the assertion on its own. -/
def Stable (W : World Call Reply σ) (P : σ → Prop) : Prop := ∀ s s', P s → W.moves s s' → P s'

/-- A proof outline for a precondition, a program and a postcondition. -/
inductive Proves (W : World Call Reply σ) (ok : σ → Call → Prop) :
    (σ → Prop) → Prog Call Reply α → (α → σ → Prop) → Prop
  | ret {P : σ → Prop} {a : α} {Q : α → σ → Prop} (hstable : Stable W P)
      (hpost : ∀ s, P s → Q a s) : Proves W ok P (.ret a) Q
  | call {P : σ → Prop} {c : Call} {next : Reply c → Prog Call Reply α} {Q : α → σ → Prop}
      (P' : Reply c → σ → Prop) (hstable : Stable W P) (hok : ∀ s, P s → ok s c)
      (hlive : ∀ s, P s → ∃ r s', W.answer s c r s')
      (hstep : ∀ s r s', P s → W.answer s c r s' → P' r s')
      (hnext : ∀ r, Proves W ok (P' r) (next r) Q) : Proves W ok P (.call c next) Q
  | poll {P : σ → Prop} {c : Call} {stop : Reply c → Bool} {next : Prog Call Reply α}
      {Q : α → σ → Prop} (P' : σ → Prop) (hstable : Stable W P) (hok : ∀ s, P s → ok s c)
      (hlive : ∀ s, P s → ∃ s₁ r s', Relation.ReflTransGen W.moves s s₁ ∧ W.answer s₁ c r s' ∧
        stop r = true)
      (hagain : ∀ s r s', P s → W.answer s c r s' → stop r = false → P s')
      (hstop : ∀ s r s', P s → W.answer s c r s' → stop r = true → P' s')
      (hnext : Proves W ok P' next Q) : Proves W ok P (.poll c stop next) Q
  | pre {P P' : σ → Prop} {q : Prog Call Reply α} {Q : α → σ → Prop} (hpre : ∀ s, P s → P' s)
      (h : Proves W ok P' q Q) : Proves W ok P q Q

theorem Stable.many {W : World Call Reply σ} {P : σ → Prop} (h : Stable W P) {s s' : σ}
    (hs : P s) (hmoves : Relation.ReflTransGen W.moves s s') : P s' := by
  induction hmoves with
  | refl => exact hs
  | tail _ hmove ih => exact h _ _ ih hmove

section Rules

variable {W : World Call Reply σ} {ok : σ → Call → Prop} {P : σ → Prop}
  {q q' : Prog Call Reply α} {Q : α → σ → Prop} {s s' : σ}

/-- What is left of the program has an outline whose precondition holds. -/
def Outlined (W : World Call Reply σ) (ok : σ → Call → Prop) (Q : α → σ → Prop)
    (t : Prog Call Reply α × σ) : Prop :=
  ∃ P, Proves W ok P t.1 Q ∧ P t.2

/-- An outline allows every call that is made. -/
theorem Proves.allowed {x : Exchange Call Reply} (h : Proves W ok P q Q) (hs : P s)
    (move : Step W (q, s) (some x) (q', s')) : ok s x.1 := by
  induction h with
  | ret hstable hpost => cases move
  | call P' hstable hok hlive hstep hnext ih =>
      cases move with
      | call hanswer => exact hok s hs
  | poll P' hstable hok hlive hagain hstop hnext ih =>
      cases move with
      | again hanswer hreply => exact hok s hs
      | stop hanswer hreply => exact hok s hs
  | pre hpre h ih => exact ih (hpre s hs) move

/-- **Step lemma.**  After a move the rest of the program has an outline. -/
theorem Proves.step {e : Option (Exchange Call Reply)} (h : Proves W ok P q Q) (hs : P s)
    (move : Step W (q, s) e (q', s')) : Outlined W ok Q (q', s') := by
  induction h with
  | ret hstable hpost =>
      cases move with
      | world hmove => exact ⟨_, .ret hstable hpost, hstable s s' hs hmove⟩
  | call P' hstable hok hlive hstep hnext ih =>
      cases move with
      | call hanswer => exact ⟨_, hnext _, hstep s _ s' hs hanswer⟩
      | world hmove =>
          exact ⟨_, .call P' hstable hok hlive hstep hnext, hstable s s' hs hmove⟩
  | poll P' hstable hok hlive hagain hstop hnext ih =>
      cases move with
      | again hanswer hreply =>
          exact ⟨_, .poll P' hstable hok hlive hagain hstop hnext,
            hagain s _ s' hs hanswer hreply⟩
      | stop hanswer hreply => exact ⟨P', hnext, hstop s _ s' hs hanswer hreply⟩
      | world hmove =>
          exact ⟨_, .poll P' hstable hok hlive hagain hstop hnext, hstable s s' hs hmove⟩
  | pre hpre h ih => exact ih (hpre s hs) move

/-- **Run lemma.**  In a run every call is allowed, and what is left of the program has
an outline. -/
theorem Proves.run {moves : List ((Prog Call Reply α × σ) × Option (Exchange Call Reply))}
    (h : Proves W ok P q Q) (hs : P s) (run : Run (Step W) (q, s) moves (q', s')) :
    Outlined W ok Q (q', s') ∧ ∀ t x, (t, some x) ∈ moves → ok t.2 x.1 := by
  have hstart : Outlined W ok Q (q, s) := ⟨P, h, hs⟩
  have hkeep : ∀ (t : Prog Call Reply α × σ) (e : Option (Exchange Call Reply))
      (t' : Prog Call Reply α × σ), Outlined W ok Q t → Step W t e t' → Outlined W ok Q t' := by
    intro t e t' hinv move
    obtain ⟨P', hrest, hP'⟩ := hinv
    exact hrest.step hP' move
  obtain ⟨hlast, hall⟩ := run.always hstart hkeep
  refine ⟨hlast, fun t x hmem => ?_⟩
  obtain ⟨⟨P', hrest, hP'⟩, t', move⟩ := hall t _ hmem
  exact hrest.allowed hP' move

/-- At its end a program satisfies its postcondition. -/
theorem Proves.post {a : α} (h : Proves W ok P (.ret a) Q) (hs : P s) : Q a s := by
  generalize hq : Prog.ret a = q at h
  induction h with
  | ret hstable hpost =>
      cases hq
      exact hpost s hs
  | call P' hstable hok hlive hstep hnext ih => cases hq
  | poll P' hstable hok hlive hagain hstop hnext ih => cases hq
  | pre hpre h ih => exact ih (hpre s hs) hq

/-- The moves of the world as a run. -/
theorem run_world (q : Prog Call Reply α) (h : Relation.ReflTransGen W.moves s s') :
    ∃ moves, Run (Step W) (q, s) moves (q, s') := by
  induction h with
  | refl => exact ⟨_, Run.start⟩
  | tail _ hmove ih =>
      obtain ⟨moves, run⟩ := ih
      exact ⟨_, Run.next run (Step.world hmove)⟩

/-- **Progress.**  A program with an outline can be carried to its end. -/
theorem Proves.finishes (h : Proves W ok P q Q) (hs : P s) :
    ∃ moves a s', Run (Step W) (q, s) moves (.ret a, s') := by
  induction h generalizing s with
  | @ret P a Q hstable hpost => exact ⟨_, a, s, Run.start⟩
  | call P' hstable hok hlive hstep hnext ih =>
      obtain ⟨r, s₁, hanswer⟩ := hlive s hs
      obtain ⟨moves, a, s', run⟩ := ih r (hstep s r s₁ hs hanswer)
      exact ⟨_, a, s', (Run.single (Step.call hanswer)).trans run⟩
  | @poll P c stop next Q P' hstable hok hlive hagain hstop hnext ih =>
      obtain ⟨s₁, r, s₂, hmoves, hanswer, hreply⟩ := hlive s hs
      have hs₁ := hstable.many hs hmoves
      obtain ⟨moves, run⟩ := run_world (.poll c stop next) hmoves
      obtain ⟨moves', a, s', run'⟩ := ih (hstop s₁ r s₂ hs₁ hanswer hreply)
      exact ⟨_, a, s', (Run.next run (Step.stop hanswer hreply)).trans run'⟩
  | pre hpre h ih => exact ih (hpre s hs)

end Rules

end Interaction
