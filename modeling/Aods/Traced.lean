-- Computations that leave a trace of what they did and then give a value or a fault. What
-- was done before a fault stays in the trace.
import Mathlib.Tactic.Common
import Mathlib.Data.List.Basic

namespace traced

variable {ε φ α β : Type}

structure Traced (ε φ α : Type) where
  trace : List ε
  result : Except φ α

instance : Monad (Traced ε φ) where
  pure a := ⟨[], .ok a⟩
  bind x f :=
    match x.result with
    | .ok a => ⟨x.trace ++ (f a).trace, (f a).result⟩
    | .error e => ⟨x.trace, .error e⟩

/-- One effect. -/
def emit (e : ε) : Traced ε φ Unit := ⟨[e], .ok ()⟩

/-- Effects one after the other. -/
def emits (es : List ε) : Traced ε φ Unit := ⟨es, .ok ()⟩

/-- A value or a fault, without an effect. -/
def attempt (x : Except φ α) : Traced ε φ α := ⟨[], x⟩

/-! ## Traces -/

@[simp] theorem trace_pure (a : α) : (pure a : Traced ε φ α).trace = [] := rfl

@[simp] theorem result_pure (a : α) : (pure a : Traced ε φ α).result = .ok a := rfl

@[simp] theorem trace_emit (e : ε) : (emit e : Traced ε φ Unit).trace = [e] := rfl

@[simp] theorem result_emit (e : ε) : (emit e : Traced ε φ Unit).result = .ok () := rfl

@[simp] theorem trace_emits (es : List ε) : (emits es : Traced ε φ Unit).trace = es := rfl

@[simp] theorem result_emits (es : List ε) : (emits es : Traced ε φ Unit).result = .ok () := rfl

@[simp] theorem trace_attempt (x : Except φ α) : (attempt x : Traced ε φ α).trace = [] := rfl

@[simp] theorem result_attempt (x : Except φ α) : (attempt x : Traced ε φ α).result = x := rfl

@[simp] theorem result_bind (x : Traced ε φ α) (f : α → Traced ε φ β) :
    (x >>= f).result = x.result.bind (fun a => (f a).result) := by
  simp only [bind, Except.bind]
  cases x.result with
  | error e => rfl
  | ok a => rfl

/-- What a computation does behind a value, if there is one. -/
def behind (r : Except φ α) (f : α → Traced ε φ β) : List ε :=
  match r with
  | .ok a => (f a).trace
  | .error _ => []

@[simp] theorem behind_ok (a : α) (f : α → Traced ε φ β) : behind (.ok a) f = (f a).trace := rfl

@[simp] theorem behind_error (e : φ) (f : α → Traced ε φ β) : behind (.error e) f = [] := rfl

@[simp] theorem trace_bind (x : Traced ε φ α) (f : α → Traced ε φ β) :
    (x >>= f).trace = x.trace ++ behind x.result f := by
  simp only [bind]
  cases x.result with
  | error e => exact (List.append_nil _).symm
  | ok a => rfl

theorem bind_result_ok {x : Traced ε φ α} {f : α → Traced ε φ β} {a : α} (h : x.result = .ok a) :
    (x >>= f).trace = x.trace ++ (f a).trace ∧ (x >>= f).result = (f a).result := by
  simp only [bind, h]
  exact ⟨trivial, trivial⟩

theorem bind_result_error {x : Traced ε φ α} {f : α → Traced ε φ β} {e : φ}
    (h : x.result = .error e) :
    (x >>= f).trace = x.trace ∧ (x >>= f).result = .error e := by
  simp only [bind, h]
  exact ⟨trivial, trivial⟩

/-! ## Effects -/

/-- All effects meet `P`. -/
def Leaves (P : ε → Prop) (x : Traced ε φ α) : Prop := ∀ e ∈ x.trace, P e

variable {P : ε → Prop}

theorem Leaves.pure (a : α) : Leaves P (Pure.pure a : Traced ε φ α) := by
  intro e he
  cases he

theorem Leaves.emit {e : ε} (h : P e) : Leaves P (traced.emit e : Traced ε φ Unit) := by
  intro e' he
  rw [trace_emit, List.mem_singleton] at he
  rw [he]
  exact h

theorem Leaves.attempt (x : Except φ α) : Leaves P (traced.attempt x : Traced ε φ α) := by
  intro e he
  cases he

/-- Effects of a sequence are effects of its first part, or of the second behind its value. -/
theorem Leaves.bind {x : Traced ε φ α} {f : α → Traced ε φ β} (hx : Leaves P x)
    (hf : ∀ a, x.result = .ok a → Leaves P (f a)) : Leaves P (x >>= f) := by
  intro e he
  cases ha : x.result with
  | error e' =>
    rw [(bind_result_error ha).1] at he
    exact hx e he
  | ok a =>
    rw [(bind_result_ok ha).1] at he
    rcases List.mem_append.mp he with he | he
    · exact hx e he
    · exact hf a ha e he

theorem leaves_bind_ok {x : Traced ε φ α} {f : α → Traced ε φ β} {a : α} (h : x.result = .ok a) :
    Leaves P (x >>= f) ↔ Leaves P x ∧ Leaves P (f a) := by
  unfold Leaves
  rw [(bind_result_ok h).1, List.forall_mem_append]

theorem leaves_bind_error {x : Traced ε φ α} {f : α → Traced ε φ β} {e : φ}
    (h : x.result = .error e) :
    Leaves P (x >>= f) ↔ Leaves P x := by
  unfold Leaves
  rw [(bind_result_error h).1]

/-- A fold whose steps keep `I` and have only effects that meet `P`. -/
theorem foldlM_keeps {I : β → Prop} {f : β → α → Traced ε φ β} {as : List α} {b : β}
    (hstep : ∀ b, I b → ∀ a ∈ as, Leaves P (f b a) ∧ ∀ b', (f b a).result = .ok b' → I b')
    (h : I b) :
    Leaves P (as.foldlM f b) ∧ ∀ b', (as.foldlM f b).result = .ok b' → I b' := by
  induction as generalizing b with
  | nil =>
    rw [List.foldlM_nil]
    refine ⟨Leaves.pure b, fun b' hb' => ?_⟩
    cases hb'
    exact h
  | cons a as ih =>
    obtain ⟨hleaves, hkeeps⟩ := hstep b h a List.mem_cons_self
    have hrest := fun b' (hb' : (f b a).result = .ok b') =>
      ih (fun b hb a ha => hstep b hb a (List.mem_cons_of_mem _ ha)) (hkeeps b' hb')
    rw [List.foldlM_cons]
    refine ⟨hleaves.bind (fun b' hb' => (hrest b' hb').1), fun b'' hb'' => ?_⟩
    cases hr : (f b a).result with
    | error e =>
      rw [(bind_result_error hr).2] at hb''
      cases hb''
    | ok b' =>
      rw [(bind_result_ok hr).2] at hb''
      exact (hrest b' hr).2 b'' hb''

/-- What the steps of a fold make of a state and the trace up to it, the fold makes of them. -/
theorem foldlM_follows {J : β → List ε → Prop} {f : β → α → Traced ε φ β} {as : List α} {b b' : β}
    {es : List ε}
    (hstep : ∀ b es b', J b es → ∀ a ∈ as, (f b a).result = .ok b' → J b' (es ++ (f b a).trace))
    (h : J b es) (hok : (as.foldlM f b).result = .ok b') : J b' (es ++ (as.foldlM f b).trace) := by
  induction as generalizing b es with
  | nil =>
    rw [List.foldlM_nil] at hok ⊢
    cases hok
    rw [trace_pure, List.append_nil]
    exact h
  | cons a as ih =>
    rw [List.foldlM_cons] at hok ⊢
    cases hr : (f b a).result with
    | error e =>
      rw [(bind_result_error hr).2] at hok
      cases hok
    | ok b₁ =>
      rw [(bind_result_ok hr).2] at hok
      rw [(bind_result_ok hr).1, ← List.append_assoc]
      exact ih (fun b es b' hb a ha => hstep b es b' hb a (List.mem_cons_of_mem _ ha))
        (hstep b es b₁ h a List.mem_cons_self hr) hok

end traced
