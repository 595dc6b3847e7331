-- A while loop as a step function: each turn stops, or goes on with a new
-- state and one output. The loop runs with fuel, and the laws say when some
-- fuel is enough.
import Mathlib.Logic.Relation
import Mathlib.Tactic.Common

namespace fuel_loop

variable {σ ω β : Type}

/-- One turn of a loop. -/
inductive Turn (σ ω β : Type) where
  | stop (w : ω)
  | next (s : σ) (b : β)

/-- The loop with fuel: how it stopped and the outputs of its turns, or `none`
when the fuel ran out. -/
def loop (turn : σ → Turn σ ω β) : Nat → σ → Option (ω × List β)
  | 0, _ => none
  | fuel + 1, s =>
    match turn s with
    | .stop w => some (w, [])
    | .next s' b => (loop turn fuel s').map (fun r => (r.1, b :: r.2))

/-- The loop comes to a stop that `good` allows. -/
def EndsIn (turn : σ → Turn σ ω β) (good : ω → Prop) (s : σ) : Prop :=
  ∃ fuel w bs, loop turn fuel s = some (w, bs) ∧ good w

/-- The turn at `s` goes on with `t`. -/
def Follows (turn : σ → Turn σ ω β) (s t : σ) : Prop := ∃ b, turn s = .next t b

/-- The loop that starts at `s` comes by `t`. -/
def Visits (turn : σ → Turn σ ω β) : σ → σ → Prop := Relation.ReflTransGen (Follows turn)

section

variable {turn : σ → Turn σ ω β} {good : ω → Prop}

theorem Visits.refl (s : σ) : Visits turn s s := Relation.ReflTransGen.refl

theorem Visits.head {s s' t : σ} {b : β} (h : turn s = .next s' b) (ht : Visits turn s' t) :
    Visits turn s t := Relation.ReflTransGen.head ⟨b, h⟩ ht

theorem visits_of_stop {s t : σ} {w : ω} (h : turn s = .stop w) : Visits turn s t ↔ t = s := by
  constructor
  · intro hv
    rcases Relation.ReflTransGen.cases_head hv with rfl | ⟨s', ⟨b, hb⟩, _⟩
    · rfl
    · rw [h] at hb
      cases hb
  · rintro rfl
    exact Visits.refl t

theorem visits_of_next {s s' t : σ} {b : β} (h : turn s = .next s' b) :
    Visits turn s t ↔ t = s ∨ Visits turn s' t := by
  constructor
  · intro hv
    rcases Relation.ReflTransGen.cases_head hv with rfl | ⟨s'', ⟨b', hb⟩, hrest⟩
    · exact Or.inl rfl
    · rw [h] at hb
      cases hb
      exact Or.inr hrest
  · rintro (rfl | hrest)
    · exact Visits.refl t
    · exact Visits.head h hrest

/-! ## Fuel -/

theorem loop_stop {s : σ} {w : ω} (h : turn s = .stop w) (fuel : Nat) :
    loop turn (fuel + 1) s = some (w, []) := by
  simp [loop, h]

theorem loop_next {s s' : σ} {b : β} (h : turn s = .next s' b) (fuel : Nat) :
    loop turn (fuel + 1) s = (loop turn fuel s').map (fun r => (r.1, b :: r.2)) := by
  simp [loop, h]

/-! ## When the loop ends -/

theorem endsIn_stop {s : σ} {w : ω} (h : turn s = .stop w) : EndsIn turn good s ↔ good w := by
  constructor
  · rintro ⟨fuel, w', bs, hl, hg⟩
    cases fuel with
    | zero => cases hl
    | succ fuel =>
      rw [loop_stop h] at hl
      cases hl
      exact hg
  · intro hg
    exact ⟨1, w, [], loop_stop h 0, hg⟩

theorem endsIn_next {s s' : σ} {b : β} (h : turn s = .next s' b) :
    EndsIn turn good s ↔ EndsIn turn good s' := by
  constructor
  · rintro ⟨fuel, w, bs, hl, hg⟩
    cases fuel with
    | zero => cases hl
    | succ fuel =>
      rw [loop_next h] at hl
      obtain ⟨r, hr, he⟩ := Option.map_eq_some_iff.mp hl
      cases he
      exact ⟨fuel, r.1, r.2, hr, hg⟩
  · rintro ⟨fuel, w, bs, hl, hg⟩
    exact ⟨fuel + 1, w, b :: bs, by rw [loop_next h, hl]; rfl, hg⟩

theorem endsIn_of_visits {s t : σ} (hv : Visits turn s t) (h : EndsIn turn good s) :
    EndsIn turn good t := by
  induction hv with
  | refl => exact h
  | tail _ hf ih =>
    obtain ⟨b, hb⟩ := hf
    exact (endsIn_next hb).mp ih

theorem endsIn_of_stop {s t : σ} {w : ω} (hv : Visits turn s t) (ht : turn t = .stop w)
    (hg : good w) :
    EndsIn turn good s := by
  induction hv using Relation.ReflTransGen.head_induction_on with
  | refl => exact (endsIn_stop ht).mpr hg
  | head hf _ ih =>
    obtain ⟨b, hb⟩ := hf
    exact (endsIn_next hb).mpr ih

/-- What holds where a loop stops, and before a turn when behind it, holds of every run that
stopped. -/
theorem loop_rule {P : σ → ω → List β → Prop} (hstop : ∀ s w, turn s = .stop w → P s w [])
    (hnext : ∀ s s' w b bs, turn s = .next s' b → P s' w bs → P s w (b :: bs)) {fuel : Nat} {s : σ}
    {w : ω} {bs : List β} (h : loop turn fuel s = some (w, bs)) : P s w bs := by
  induction fuel generalizing s bs with
  | zero => cases h
  | succ fuel ih =>
    cases ht : turn s with
    | stop w' =>
      rw [loop_stop ht] at h
      cases h
      exact hstop s w ht
    | next s' b =>
      rw [loop_next ht] at h
      obtain ⟨r, hr, he⟩ := Option.map_eq_some_iff.mp h
      cases he
      exact hnext s s' r.1 b r.2 ht (ih hr)

theorem visits_of_loop {fuel : Nat} {s : σ} {w : ω} {bs : List β}
    (h : loop turn fuel s = some (w, bs)) :
    ∃ t, Visits turn s t ∧ turn t = .stop w := by
  refine loop_rule (P := fun s w _ => ∃ t, Visits turn s t ∧ turn t = .stop w) (fun s w ht => ?_)
    (fun s s' w b bs ht hrest => ?_) h
  · exact ⟨s, Visits.refl s, ht⟩
  · obtain ⟨t, hv, hstop⟩ := hrest
    exact ⟨t, Visits.head ht hv, hstop⟩

/-- A function that is a loop with something made of its end comes back just when the loop ends
well. -/
theorem endsIn_of_run {ε ρ : Type} {run : Nat → Option (Except ε ρ)} {s : σ}
    {f : ω × List β → Except ε ρ} (hrun : ∀ fuel, run fuel = (loop turn fuel s).map f)
    (hgood : ∀ w bs, (∃ r, f (w, bs) = .ok r) ↔ good w) :
    (∃ fuel r, run fuel = some (.ok r)) ↔ EndsIn turn good s := by
  constructor
  · rintro ⟨fuel, r, hr⟩
    rw [hrun] at hr
    obtain ⟨⟨w, bs⟩, hl, hw⟩ := Option.map_eq_some_iff.mp hr
    exact ⟨fuel, w, bs, hl, (hgood w bs).mp ⟨r, hw⟩⟩
  · rintro ⟨fuel, w, bs, hl, hg⟩
    obtain ⟨r, hr⟩ := (hgood w bs).mpr hg
    exact ⟨fuel, r, by rw [hrun, hl, Option.map_some, hr]⟩

/-- A set of states that every turn stays in holds the loop for ever. -/
theorem loop_of_trap {trap : σ → Prop}
    (hstay : ∀ s, trap s → ∃ s' b, turn s = .next s' b ∧ trap s') :
    ∀ fuel s, trap s → loop turn fuel s = none := by
  intro fuel
  induction fuel with
  | zero => intro s _; rfl
  | succ fuel ih =>
    intro s hs
    obtain ⟨s', b, ht, hs'⟩ := hstay s hs
    rw [loop_next ht, ih s' hs']
    rfl

/-- The exact law of a loop with a measure that drops on every turn outside a
trap: it ends well just when it never comes by the trap, nor by a bad stop. -/
theorem endsIn_iff {trap : σ → Prop} (μ : σ → Nat)
    (hstay : ∀ s, trap s → ∃ s' b, turn s = .next s' b ∧ trap s')
    (hdrop : ∀ s s' b, ¬ trap s → turn s = .next s' b → μ s' < μ s) (s : σ) :
    EndsIn turn good s ↔
      ∀ t, Visits turn s t → ¬ trap t ∧ ∀ w, turn t = .stop w → good w := by
  constructor
  · intro h t hv
    have ht := endsIn_of_visits hv h
    refine ⟨fun htrap => ?_, fun w hw => (endsIn_stop hw).mp ht⟩
    obtain ⟨fuel, w, bs, hl, _⟩ := ht
    rw [loop_of_trap hstay fuel t htrap] at hl
    cases hl
  · -- strong induction on the measure: no visited state is in the trap, so it drops
    intro h
    induction hn : μ s using Nat.strongRecOn generalizing s with
    | ind n ih =>
      subst hn
      obtain ⟨hfree, hgood⟩ := h s (Visits.refl s)
      cases ht : turn s with
      | stop w => exact (endsIn_stop ht).mpr (hgood w ht)
      | next s' b =>
        rw [endsIn_next ht]
        exact ih _ (hdrop s s' b hfree ht) s' (fun t hv => h t (Visits.head ht hv)) rfl

end

/-! ## Two loops -/

/-- Two loops whose turns go hand in hand, with any fuel: both run out of it, or both stop with the
same outputs. -/
theorem loop_simulates {σ' ω' : Type} {turn : σ → Turn σ ω β} {turn' : σ' → Turn σ' ω' β}
    {R : σ → σ' → Prop}
    {Q : ω → ω' → Prop}
    (hturn : ∀ s s', R s s' → (∃ w w', turn s = .stop w ∧ turn' s' = .stop w' ∧ Q w w') ∨
      ∃ t t' b, turn s = .next t b ∧ turn' s' = .next t' b ∧ R t t')
    (fuel : Nat) {s : σ} {s' : σ'} (h : R s s') :
    (loop turn fuel s = none ∧ loop turn' fuel s' = none) ∨
      ∃ w w' bs, loop turn fuel s = some (w, bs) ∧ loop turn' fuel s' = some (w', bs) ∧ Q w w' := by
  induction fuel generalizing s s' with
  | zero => exact Or.inl ⟨rfl, rfl⟩
  | succ fuel ih =>
    rcases hturn s s' h with ⟨w, w', hw, hw', hq⟩ | ⟨t, t', b, ht, ht', hr⟩
    · exact Or.inr ⟨w, w', [], loop_stop hw fuel, loop_stop hw' fuel, hq⟩
    · rw [loop_next ht, loop_next ht']
      rcases ih hr with ⟨hnone, hnone'⟩ | ⟨w, w', bs, hl, hl', hq⟩
      · rw [hnone, hnone']
        exact Or.inl ⟨rfl, rfl⟩
      · rw [hl, hl']
        exact Or.inr ⟨w, w', b :: bs, rfl, rfl, hq⟩

end fuel_loop
