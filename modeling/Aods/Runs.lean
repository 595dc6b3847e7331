-- Runs of a handler: events one after another, from a first state. The history
-- of a run lists the events with what the handler sent out for them, the newest
-- first, and `Since` says what a history knows of an event and of those after it.
import Mathlib.Tactic.Common
import Mathlib.Data.List.Basic

namespace runs

variable {σ ε ω φ η : Type}

/-- What a handler makes of a state and an event: a new state and outputs, or a fault. -/
abbrev Handler (σ ε ω φ : Type) := σ → ε → Except φ (σ × List ω)

/-- The runs from `init` in which each event meets `Ok`, which sees the history and the
state before the event. A fault ends a run. -/
inductive Run (handle : Handler σ ε ω φ) (Ok : List (ε × List ω) → σ → ε → Prop) (init : σ) :
    List (ε × List ω) → σ → Prop
  | start : Run handle Ok init [] init
  | next {es : List (ε × List ω)} {s s' : σ} {e : ε} {os : List ω}
      (before : Run handle Ok init es s) (ok : Ok es s e) (step : handle s e = .ok (s', os)) :
      Run handle Ok init ((e, os) :: es) s'

/-- Every event is allowed. -/
def Any : List (ε × List ω) → σ → ε → Prop := fun _ _ _ => True

variable {handle : Handler σ ε ω φ} {Ok Ok' : List (ε × List ω) → σ → ε → Prop} {init : σ}

/-- What holds at first and is kept by each allowed event holds all along. -/
theorem Run.invariant {I : List (ε × List ω) → σ → Prop} (h0 : I [] init)
    (hstep : ∀ {es s e s' os}, I es s → Ok es s e → handle s e = .ok (s', os) →
      I ((e, os) :: es) s')
    {es : List (ε × List ω)} {s : σ} (h : Run handle Ok init es s) : I es s := by
  induction h with
  | start => exact h0
  | next _ ok step ih => exact hstep ih ok step

theorem Run.mono (hok : ∀ {es s e}, Ok es s e → Ok' es s e) {es : List (ε × List ω)} {s : σ}
    (h : Run handle Ok init es s) : Run handle Ok' init es s := by
  induction h with
  | start => exact .start
  | next _ ok step ih => exact .next ih (hok ok) step

theorem Run.trans {es es' : List (ε × List ω)} {s s' : σ} (h : Run handle Any init es s)
    (h' : Run handle Any s es' s') : Run handle Any init (es' ++ es) s' := by
  induction h' with
  | start => exact h
  | next _ _ step ih => exact .next ih trivial step

/-- The state behind events one after another. -/
def follow (handle : Handler σ ε ω φ) (s : σ) : List ε → Except φ σ
  | [] => .ok s
  | e :: events =>
    match handle s e with
    | .ok (s', _) => follow handle s' events
    | .error f => .error f

theorem Run.follow {es : List (ε × List ω)} {s s' : σ} {events : List ε}
    (h : Run handle Ok init es s) (hok : ∀ e ∈ events, ∀ es s, Ok es s e)
    (hf : follow handle s events = .ok s') :
    ∃ es', Run handle Ok init es' s' := by
  induction events generalizing es s with
  | nil =>
    cases hf
    exact ⟨es, h⟩
  | cons e events ih =>
    unfold runs.follow at hf
    split at hf
    · rename_i s'' os hstep
      have hnext := Run.next h (hok e List.mem_cons_self es s) hstep
      exact ih hnext (fun e' he' => hok e' (List.mem_cons_of_mem e he')) hf
    · cases hf

/-! ## Histories -/

/-- Some entry meets `P`, and none after it meets `Q`. -/
def Since (P Q : η → Prop) (es : List η) : Prop :=
  ∃ newer e older, es = newer ++ e :: older ∧ P e ∧ ∀ e' ∈ newer, ¬ Q e'

theorem since_nil (P Q : η → Prop) : ¬ Since P Q [] := by
  rintro ⟨newer, e, older, he, _⟩
  exact absurd he.symm (by simp)

theorem since_cons {P Q : η → Prop} {e : η} {es : List η} :
    Since P Q (e :: es) ↔ P e ∨ (¬ Q e ∧ Since P Q es) := by
  constructor
  · rintro ⟨newer, e', older, he, hp, hq⟩
    cases newer with
    | nil =>
      obtain ⟨rfl, rfl⟩ := List.cons.inj he
      exact Or.inl hp
    | cons n newer =>
      obtain ⟨rfl, rfl⟩ := List.cons.inj he
      exact Or.inr ⟨hq e List.mem_cons_self,
        newer, e', older, rfl, hp, fun x hx => hq x (List.mem_cons_of_mem e hx)⟩
  · rintro (hp | ⟨hq, newer, e', older, rfl, hp, hqs⟩)
    · exact ⟨[], e, es, rfl, hp, by simp⟩
    · refine ⟨e :: newer, e', older, rfl, hp, fun x hx => ?_⟩
      rcases List.mem_cons.mp hx with rfl | hx
      · exact hq
      · exact hqs x hx

/-- Entries that do not meet `P` say nothing for it. -/
theorem Since.of_append {P Q : η → Prop} {newer older : List η} (h : Since P Q (newer ++ older))
    (hp : ∀ e ∈ newer, ¬ P e) : Since P Q older := by
  induction newer with
  | nil => exact h
  | cons e newer ih =>
    rcases since_cons.mp h with hnow | ⟨_, hbefore⟩
    · exact absurd hnow (hp e List.mem_cons_self)
    · exact ih hbefore (fun e' he' => hp e' (List.mem_cons_of_mem e he'))

/-- Some entry meets `P`. -/
def Once (P : η → Prop) (es : List η) : Prop := ∃ e ∈ es, P e

theorem once_cons {P : η → Prop} {e : η} {es : List η} : Once P (e :: es) ↔ P e ∨ Once P es := by
  simp [Once]

theorem Since.once {P Q : η → Prop} {es : List η} (h : Since P Q es) : Once P es := by
  obtain ⟨newer, e, older, rfl, hp, _⟩ := h
  exact ⟨e, by simp, hp⟩

end runs
