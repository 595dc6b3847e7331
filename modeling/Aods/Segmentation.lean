-- Messages cut out of a stream. A decoder takes one message off the front of
-- the symbols it holds. When a longer stream never changes what it took, the
-- cut of the stream into chunks does not matter.
import Aods.FuelLoop
import Mathlib.Data.List.Basic

open fuel_loop

namespace segmentation

variable {α β γ σ ω : Type}

/-- A decoder: `next` gives the first message and the symbols after it. -/
structure Decoder (α β : Type) where
  next : List α → Option (β × List α)
  shorter : ∀ {s x r}, next s = some (x, r) → r.length < s.length
  stable : ∀ {s x r} (t : List α), next s = some (x, r) → next (s ++ t) = some (x, r ++ t)

/-- Every message of `s`, and the symbols that are left. -/
def Decoder.drain (d : Decoder α β) (s : List α) : List β × List α :=
  match _h : d.next s with
  | none => ([], s)
  | some (x, r) =>
    let q := d.drain r
    (x :: q.1, q.2)
termination_by s.length
decreasing_by exact d.shorter _h

/-- The chunks of a stream one after another: each goes behind what is left. -/
def Decoder.feed (d : Decoder α β) : List α → List (List α) → List β × List α
  | buf, [] => ([], buf)
  | buf, c :: cs =>
    let q := d.drain (buf ++ c)
    let r := d.feed q.2 cs
    (q.1 ++ r.1, r.2)

variable (d : Decoder α β)

theorem drain_none {s : List α} (h : d.next s = none) : d.drain s = ([], s) := by
  rw [Decoder.drain]
  split
  · rfl
  · rename_i x r hs
    rw [h] at hs
    cases hs

theorem drain_some {s r : List α} {x : β} (h : d.next s = some (x, r)) :
    d.drain s = (x :: (d.drain r).1, (d.drain r).2) := by
  rw [Decoder.drain]
  split
  · rename_i hs
    rw [h] at hs
    cases hs
  · rename_i x' r' hs
    rw [h] at hs
    cases hs
    rfl

/-- What is left holds no whole message. -/
theorem next_drain (s : List α) : d.next (d.drain s).2 = none := by
  induction hn : s.length using Nat.strongRecOn generalizing s with
  | ind n ih =>
    cases h : d.next s with
    | none => rw [drain_none d h]; exact h
    | some p =>
      obtain ⟨x, r⟩ := p
      rw [drain_some d h]
      exact ih _ (hn ▸ d.shorter h) r rfl

theorem drain_length_le (s : List α) : (d.drain s).2.length ≤ s.length := by
  induction hn : s.length using Nat.strongRecOn generalizing s with
  | ind n ih =>
    cases h : d.next s with
    | none =>
      rw [drain_none d h]
      exact Nat.le_of_eq hn
    | some p =>
      obtain ⟨x, r⟩ := p
      have hlt := d.shorter h
      rw [drain_some d h]
      exact Nat.le_trans (ih _ (hn ▸ hlt) r rfl) (by omega)

/-- More symbols go on where the shorter stream stopped. -/
theorem drain_append (s t : List α) :
    d.drain (s ++ t) =
      ((d.drain s).1 ++ (d.drain ((d.drain s).2 ++ t)).1, (d.drain ((d.drain s).2 ++ t)).2) := by
  induction hn : s.length using Nat.strongRecOn generalizing s with
  | ind n ih =>
    cases h : d.next s with
    | none => simp [drain_none d h]
    | some p =>
      obtain ⟨x, r⟩ := p
      rw [drain_some d h, drain_some d (d.stable t h), ih _ (hn ▸ d.shorter h) r rfl]
      simp

/-- The cut does not matter: chunks give what the whole stream gives. -/
theorem feed_eq_drain {buf : List α} (cs : List (List α)) (h : d.next buf = none) :
    d.feed buf cs = d.drain (buf ++ cs.flatten) := by
  induction cs generalizing buf with
  | nil => simp [Decoder.feed, drain_none d h]
  | cons c cs ih =>
    have hrest := ih (next_drain d (buf ++ c))
    rw [Decoder.feed, hrest, List.flatten_cons, ← List.append_assoc, drain_append d (buf ++ c)]

/-- A stream of whole codewords gives their messages and leaves nothing. -/
theorem drain_flatten {enc : γ → List α} {val : γ → β} (gs : List γ)
    (hnil : d.next [] = none) (h : ∀ g ∈ gs, ∀ t, d.next (enc g ++ t) = some (val g, t)) :
    d.drain (gs.map enc).flatten = (gs.map val, []) := by
  induction gs with
  | nil => exact drain_none d hnil
  | cons g gs ih =>
    rw [List.map_cons, List.flatten_cons, drain_some d (h g List.mem_cons_self _),
      ih (fun g' hg => h g' (List.mem_cons_of_mem g hg))]
    rfl

/-! ## A loop that does the work of the decoder -/

/-- A loop whose turns match the decoder's on related states gives the
decoder's messages, with any fuel past the number of symbols. -/
theorem loop_refines {turn : σ → Turn σ ω β} {R : σ → List α → Prop} {Q : ω → List α → Prop}
    (hstop : ∀ p s, R p s → d.next s = none → ∃ w, turn p = .stop w ∧ Q w s)
    (hnext : ∀ p s x r, R p s → d.next s = some (x, r) → ∃ p', turn p = .next p' x ∧ R p' r)
    {p : σ} {s : List α} (h : R p s) {fuel : Nat} (hf : s.length < fuel) :
    ∃ w, loop turn fuel p = some (w, (d.drain s).1) ∧ Q w (d.drain s).2 := by
  induction fuel generalizing p s with
  | zero => omega
  | succ fuel ih =>
    cases hn : d.next s with
    | none =>
      obtain ⟨w, hw, hq⟩ := hstop p s h hn
      exact ⟨w, by rw [loop_stop hw, drain_none d hn], by rw [drain_none d hn]; exact hq⟩
    | some q =>
      obtain ⟨x, r⟩ := q
      obtain ⟨p', hp', hr⟩ := hnext p s x r h hn
      have hlen := d.shorter hn
      obtain ⟨w, hw, hq⟩ := ih hr (by omega)
      refine ⟨w, ?_, by rw [drain_some d hn]; exact hq⟩
      rw [loop_next hp', hw, drain_some d hn]
      rfl

end segmentation
