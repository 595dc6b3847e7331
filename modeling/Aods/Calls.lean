-- Calls on a state one after another. A call comes back with a new state, or it does not. The rule
-- says when all of them come back and keep a property: when each meets, in the state before it,
-- what the call needs.
import Mathlib.Tactic.Common

namespace calls

variable {σ ε φ : Type}

/-- What a call makes of a state, if it comes back. -/
abbrev Step (σ ε φ : Type) := σ → ε → Except φ σ

/-- Each call meets `P` in the state before it. Behind one that does not come back there is no
call. -/
def Along (step : Step σ ε φ) (P : σ → ε → Prop) : σ → List ε → Prop
  | _, [] => True
  | s, e :: es =>
    P s e ∧
      match step s e with
      | .error _ => True
      | .ok s' => Along step P s' es

instance decidableAlong (step : Step σ ε φ) (P : σ → ε → Prop) [∀ s e, Decidable (P s e)] :
    (s : σ) → (es : List ε) → Decidable (Along step P s es)
  | _, [] => inferInstanceAs (Decidable True)
  | s, e :: es =>
    match h : step s e with
    | .error _ => decidable_of_iff (P s e) (by simp [Along, h])
    | .ok s' =>
      have := decidableAlong step P s' es
      decidable_of_iff (P s e ∧ Along step P s' es) (by simp [Along, h])

/-- Each call comes back as `Q` says, and `I` holds all along. -/
def Keeps (step : Step σ ε φ) (I : σ → Prop) (Q : σ → ε → σ → Prop) : σ → List ε → Prop
  | s, [] => I s
  | s, e :: es => I s ∧ ∃ s', step s e = .ok s' ∧ Q s e s' ∧ Keeps step I Q s' es

variable {step : Step σ ε φ} {I Inv : σ → Prop} {P Allowed Meets : σ → ε → Prop}
  {Q : σ → ε → σ → Prop} {s s' : σ} {e : ε}
  {es : List ε}

theorem Keeps.here (h : Keeps step I Q s es) : I s := by
  cases es with
  | nil => exact h
  | cons e es => exact h.1

theorem along_ok (h : step s e = .ok s') : Along step P s (e :: es) ↔
    P s e ∧ Along step P s' es := by
  rw [Along, h]

theorem along_all (h : ∀ s e, P s e) : Along step P s es := by
  induction es generalizing s with
  | nil => trivial
  | cons e es ih =>
    refine ⟨h s e, ?_⟩
    split
    · trivial
    · exact ih

/-- Where an invariant is kept by a call that meets what it needs, and `I` or `Q` lost by one that
does not, the calls keep both just when each of them meets what it needs. -/
theorem keeps_iff (hI : ∀ s, Inv s → I s)
    (hkept : ∀ s e, Inv s → Allowed s e → Meets s e → ∃ s', step s e = .ok s' ∧ Q s e s' ∧ Inv s')
    (hlost : ∀ s e s', Inv s → Allowed s e → ¬ Meets s e → step s e = .ok s' → Q s e s' → ¬ I s')
    (hs : Inv s) (hallowed : Along step Allowed s es) :
    Keeps step I Q s es ↔ Along step Meets s es := by
  induction es generalizing s with
  | nil => exact iff_of_true (hI s hs) trivial
  | cons e es ih =>
    constructor
    · rintro ⟨_, s', hstep, hQ, hkeeps⟩
      have hmeets : Meets s e := by
        by_contra hnot
        exact hlost s e s' hs hallowed.1 hnot hstep hQ hkeeps.here
      obtain ⟨s'', hstep', _, hs'⟩ := hkept s e hs hallowed.1 hmeets
      rw [hstep] at hstep'
      cases hstep'
      exact (along_ok hstep).mpr ⟨hmeets, (ih hs' ((along_ok hstep).mp hallowed).2).mp hkeeps⟩
    · intro hmeets
      obtain ⟨s', hstep, hQ, hs'⟩ := hkept s e hs hallowed.1 hmeets.1
      have hrest := (ih hs' ((along_ok hstep).mp hallowed).2).mpr ((along_ok hstep).mp hmeets).2
      exact ⟨hI s hs, s', hstep, hQ, hrest⟩

end calls
