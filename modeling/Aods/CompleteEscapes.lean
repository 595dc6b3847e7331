-- Where the parser stays inside of its text: it goes by four bytes behind a `\u`, whatever they
-- are, and by the byte behind any other backslash. In a text whose escapes are all there and whose
-- brackets are not nested too deep for the stack, however wrong it is otherwise, no function of the
-- parser reads behind the NUL or writes behind a buffer.
import Aods.JsonTexts

open machine scanf
open util.json (text)

namespace util.cjson

/-! ## Texts whose escapes are all there -/

/-- Four bytes that end no string and begin no escape. -/
def fourPlain (t : Bytes) : Bool := 4 ≤ t.length && (t.take 4).all fun b => b ≠ 34 && b ≠ 92

/-- A backslash in a string has a byte behind it, and a `\u` four plain ones, from a place inside
or outside of a string on. -/
def wellEscaped (inside : Bool) : Bytes → Bool
  | [] => true
  | [b] => !inside || b ≠ 92
  | b :: c :: t =>
    if b = 34 then wellEscaped (!inside) (c :: t)
    else if inside && b = 92 then (c ≠ 117 || fourPlain t) && wellEscaped true t
    else wellEscaped inside (c :: t)

theorem wellEscaped_quote (inside : Bool) (t : Bytes) :
    wellEscaped inside (34 :: t) = wellEscaped (!inside) t := by
  cases t with
  | nil => simp [wellEscaped]
  | cons c t => rw [wellEscaped, if_pos rfl]

theorem wellEscaped_other {inside : Bool} {b : UInt8} (hquote : b ≠ 34)
    (h : inside = false ∨ b ≠ 92) (t : Bytes) :
    wellEscaped inside (b :: t) = wellEscaped inside t := by
  have hslash : (inside && decide (b = 92)) = false := by
    rcases h with rfl | h
    · rfl
    · rw [decide_eq_false h, Bool.and_false]
  cases t with
  | nil =>
    rcases h with rfl | h
    · rfl
    · simp [wellEscaped, h]
  | cons c t => rw [wellEscaped, if_neg hquote, hslash, if_neg (by decide)]

/-- A place of a text: outside of a string, inside of one, or behind a backslash in one. -/
inductive Place where
  | outside
  | inside
  | escaped

/-- How many brackets and braces are open at most from a place on. -/
def nesting : Place → Bytes → Nat
  | _, [] => 0
  | .escaped, _ :: t => nesting .inside t
  | .inside, b :: t =>
    if b = 34 then nesting .outside t else if b = 92 then nesting .escaped t else nesting .inside t
  | .outside, b :: t =>
    if b = 34 then nesting .inside t
    else if b = 91 ∨ b = 123 then nesting .outside t + 1
    else if b = 93 ∨ b = 125 then nesting .outside t - 1
    else nesting .outside t

theorem nesting_plain {b : UInt8} (hquote : b ≠ 34) (hslash : b ≠ 92) (t : Bytes) :
    nesting .inside (b :: t) = nesting .inside t := by
  rw [nesting, if_neg hquote, if_neg hslash]

theorem nesting_run {p : Bytes} (h : ∀ b ∈ p, b ≠ 34 ∧ b ≠ 0 ∧ b ≠ 92) (t : Bytes) :
    nesting .inside (p ++ t) = nesting .inside t := by
  induction p with
  | nil => rfl
  | cons b p ih =>
    obtain ⟨hquote, -, hslash⟩ := h b List.mem_cons_self
    rw [List.cons_append, nesting_plain hquote hslash,
      ih fun b hb => h b (List.mem_cons_of_mem _ hb)]

theorem nesting_escape (c : UInt8) (t : Bytes) :
    nesting .inside (92 :: c :: t) = nesting .inside t := by
  rw [nesting, if_neg (by decide), if_pos rfl, nesting]

/-- A byte outside of a string changes the level by one at most. -/
theorem nesting_tail {b : UInt8} (hquote : b ≠ 34) (t : Bytes) :
    nesting .outside t ≤ nesting .outside (b :: t) + 1 ∧
      (b ≠ 93 → b ≠ 125 → nesting .outside t ≤ nesting .outside (b :: t)) := by
  rw [nesting, if_neg hquote]
  split
  · omega
  split
  · next hb =>
    refine ⟨by omega, fun hbracket hbrace => ?_⟩
    rcases hb with hb | hb
    · exact absurd hb hbracket
    · exact absurd hb hbrace
  · omega

theorem nesting_open {b : UInt8} (hb : b = 91 ∨ b = 123) (t : Bytes) :
    nesting .outside (b :: t) = nesting .outside t + 1 := by
  have hquote : b ≠ 34 := by
    rcases hb with rfl | rfl <;> decide
  rw [nesting, if_neg hquote, if_pos hb]

/-- What the parser may be given, as a C string: a place outside of a string. -/
structure Outside (t : Bytes) : Prop where
  hzero : 0 ∉ t
  hescaped : wellEscaped false t = true

/-- A place inside of a string. -/
structure Inside (t : Bytes) : Prop where
  hzero : 0 ∉ t
  hescaped : wellEscaped true t = true

theorem notMem_tail {b : UInt8} {t : Bytes} (h : (0 : UInt8) ∉ b :: t) : b ≠ 0 ∧ 0 ∉ t :=
  ⟨fun he => h (he ▸ List.mem_cons_self), fun ht => h (List.mem_cons_of_mem _ ht)⟩

theorem Outside.tail {b : UInt8} {t : Bytes} (h : Outside (b :: t)) (hb : b ≠ 34) : Outside t :=
  ⟨(notMem_tail h.hzero).2, by rw [← wellEscaped_other hb (Or.inl rfl) t]; exact h.hescaped⟩

theorem Outside.string {t : Bytes} (h : Outside (34 :: t)) : Inside t :=
  ⟨(notMem_tail h.hzero).2, (wellEscaped_quote false t).symm.trans h.hescaped⟩

theorem Inside.quote {t : Bytes} (h : Inside (34 :: t)) : Outside t :=
  ⟨(notMem_tail h.hzero).2, (wellEscaped_quote true t).symm.trans h.hescaped⟩

theorem Inside.plain {b : UInt8} {t : Bytes} (h : Inside (b :: t)) (hquote : b ≠ 34)
    (hslash : b ≠ 92) : Inside t :=
  ⟨(notMem_tail h.hzero).2, by rw [← wellEscaped_other hquote (Or.inr hslash) t]; exact h.hescaped⟩

/-- Behind a backslash there is a byte, and the string goes on behind that one. -/
theorem Inside.escape {t : Bytes} (h : Inside (92 :: t)) :
    ∃ c u, t = c :: u ∧ c ≠ 0 ∧ Inside u ∧ (c = 117 → fourPlain u = true) := by
  have hescaped := h.hescaped
  cases t with
  | nil => simp [wellEscaped] at hescaped
  | cons c u =>
    obtain ⟨hc, hu⟩ := notMem_tail (notMem_tail h.hzero).2
    simp only [wellEscaped] at hescaped
    simp at hescaped
    refine ⟨c, u, rfl, hc, ⟨hu, hescaped.2⟩, fun he => ?_⟩
    rcases hescaped.1 with hne | hplain
    · exact absurd he hne
    · exact hplain

theorem Inside.four {u : Bytes} (h : Inside u) (hplain : fourPlain u = true) :
    ∃ b₁ b₂ b₃ b₄ t, u = b₁ :: b₂ :: b₃ :: b₄ :: t ∧ Inside t ∧ ∀ b ∈ [b₁, b₂, b₃, b₄], b ≠ 34 ∧
      b ≠ 0 ∧ b ≠ 92 := by
  match u, h, hplain with
  | b₁ :: b₂ :: b₃ :: b₄ :: t, h, hplain =>
    simp [fourPlain] at hplain
    obtain ⟨⟨q₁, s₁⟩, ⟨q₂, s₂⟩, ⟨q₃, s₃⟩, q₄, s₄⟩ := hplain
    have h₁ := h.plain q₁ s₁
    have h₂ := h₁.plain q₂ s₂
    have h₃ := h₂.plain q₃ s₃
    refine ⟨b₁, b₂, b₃, b₄, t, rfl, h₃.plain q₄ s₄, ?_⟩
    intro b hb
    simp only [List.mem_cons, List.not_mem_nil, or_false] at hb
    rcases hb with rfl | rfl | rfl | rfl
    · exact ⟨q₁, (notMem_tail h.hzero).1, s₁⟩
    · exact ⟨q₂, (notMem_tail h₁.hzero).1, s₂⟩
    · exact ⟨q₃, (notMem_tail h₂.hzero).1, s₃⟩
    · exact ⟨q₄, (notMem_tail h₃.hzero).1, s₄⟩

/-! ## Strings -/

theorem length_utf8_le (uc : Nat) : (utf8 uc).length ≤ 4 := by
  have htail : ∀ k uc out, (tailBytes k uc out).2.length = out.length + k := by
    intro k
    induction k with
    | zero => exact fun _ _ => rfl
    | succ k ih =>
      intro uc out
      rw [tailBytes, ih, List.length_cons]
      omega
  unfold utf8
  simp only [List.length_cons, htail, List.length_nil]
  split <;> (try split) <;> (try split) <;> decide

theorem hexFrom_some (k h : Nat) {t : Bytes} (ht : k ≤ t.length) :
    ∃ uc, hexFrom k h t = some uc := by
  induction k generalizing h t with
  | zero => exact ⟨h, by cases t <;> rfl⟩
  | succ k ih =>
    cases t with
    | nil => cases ht
    | cons b t =>
      rw [hexFrom]
      cases hexDigit b with
      | none => exact ⟨0, rfl⟩
      | some d => exact ih _ (Nat.le_of_succ_le_succ ht)

/-- What is written for a `\u` and how far it goes: four bytes at most, by four bytes, or by ten
when another one is right behind these. -/
inductive Transcoded (u : Bytes) : Option (Bytes × Nat) → Prop where
  | one {w : Bytes} (hw : w.length ≤ 4) : Transcoded u (some (w, 5))
  | two {w v : Bytes} (hw : w.length ≤ 4) (hu : u = 92 :: 117 :: v) : Transcoded u (some (w, 11))

theorem transcode_inside {ds u : Bytes} (hds : ds.length = 4) (h : Inside u) :
    Transcoded u (transcode (ds ++ (u ++ [0]))) := by
  obtain ⟨uc, huc⟩ := hexFrom_some 4 0 (t := ds ++ (u ++ [0])) (by simp; omega)
  have hdrop : (ds ++ (u ++ [0])).drop 4 = u ++ [0] := by rw [← hds, List.drop_left]
  unfold transcode parseHex4
  simp only [huc, hdrop, Option.bind_eq_bind, Option.bind_some]
  split
  · exact .one (Nat.zero_le _)
  split
  · cases u with
    | nil => exact .one (Nat.zero_le _)
    | cons b u =>
      by_cases hb : b = 92
      · subst hb
        obtain ⟨c, v, rfl, -, hv, hplain⟩ := h.escape
        by_cases hc : c = 117
        · subst hc
          obtain ⟨b₁, b₂, b₃, b₄, t, rfl, -⟩ := hv.four (hplain rfl)
          obtain ⟨uc2, huc2⟩ := hexFrom_some 4 0 (t := b₁ :: b₂ :: b₃ :: b₄ :: t ++ [0]) (by simp)
          simp only [List.cons_append, ne_eq, not_true_eq_false, if_false] at huc2 ⊢
          simp only [huc2, Option.bind_some]
          split
          · exact .two (Nat.zero_le _) rfl
          · exact .two (length_utf8_le _) rfl
        · simp only [List.cons_append, ne_eq, not_true_eq_false, if_false, hc, not_false_eq_true,
            if_true]
          exact .one (Nat.zero_le _)
      · simp only [List.cons_append, ne_eq, hb, not_false_eq_true, if_true]
        exact .one (Nat.zero_le _)
  · exact .one (length_utf8_le uc)

/-- Where a string that began with some text may end: at the NUL, or at a quote with a text behind
it that is nested as it was. -/
def Ends (u rest : Bytes) : Prop :=
  rest = [] ∨ ∃ r, rest = 34 :: r ∧ Outside r ∧ nesting .outside r = nesting .inside u

theorem Ends.of_eq {u v rest : Bytes} (h : Ends v rest)
    (hsame : nesting .inside u = nesting .inside v) :
    Ends u rest := by
  rcases h with h | ⟨r, hr, hout, hdeep⟩
  · exact Or.inl h
  · exact Or.inr ⟨r, hr, hout, hdeep.trans hsame.symm⟩

/-- Both loops end at the same quote or at the NUL, and the second one writes no more than the first
one counted. -/
theorem string_loops {u : Bytes} (h : Inside u) : ∃ n out rest, measure (u ++ [0]) = some n ∧
    unescape 0 (u ++ [0]) = some (out, rest ++ [0]) ∧ out.length ≤ n ∧ rest.length ≤ u.length ∧
      Ends u rest := by
  induction hlen : u.length using Nat.strongRecOn generalizing u with
  | ind len ih =>
    cases u with
    | nil => exact ⟨0, [], [], rfl, rfl, le_rfl, Nat.zero_le _, Or.inl rfl⟩
    | cons b u =>
      have hzero := (notMem_tail h.hzero).1
      by_cases hquote : b = 34
      · subst hquote
        refine ⟨0, [], 34 :: u,
          ?_, by simp [unescape], le_rfl, hlen.le, Or.inr ⟨u, rfl, h.quote, ?_⟩⟩
        rotate_left
        · rw [nesting, if_pos rfl]
        cases u <;> simp [measure]
      by_cases hslash : b = 92
      · subst hslash
        obtain ⟨c, u, rfl, hc, hu, hplain⟩ := h.escape
        simp only [List.length_cons] at hlen
        by_cases hunit : c = 117
        · subst hunit
          obtain ⟨b₁, b₂, b₃, b₄, t, rfl, ht, hds⟩ := hu.four (hplain rfl)
          simp only [List.length_cons] at hlen
          have htrans := @transcode_inside [b₁, b₂, b₃, b₄] _ rfl ht
          generalize hw : transcode ([b₁, b₂, b₃, b₄] ++ (t ++ [0])) = written at htrans
          cases htrans with
          | @one w hlength =>
            obtain ⟨n, out, rest, hm, hun, hout, hrest, hend⟩ := ih t.length (by omega) ht rfl
            have hescape : escape ([117, b₁, b₂, b₃, b₄] ++ (t ++ [0])) = some (w, 5) := hw
            have hdeep := (nesting_escape 117 _).trans (nesting_run hds t)
            refine ⟨n + 4 + 1, w ++ out, rest, ?_,
              (unescape_escape hescape).trans (by rw [hun]; rfl), ?_, ?_,
              hend.of_eq hdeep⟩
            · have hrun := measure_run hds hm
              exact (measure_escape 117 _).trans (congrArg (Option.map (· + 1)) hrun)
            · rw [List.length_append]
              omega
            · omega
          | @two w v hlength hv =>
            subst hv
            obtain ⟨c, v', hcons, -, hv, hplain'⟩ := ht.escape
            cases hcons
            obtain ⟨e₁, e₂, e₃, e₄, t, rfl, ht', hes⟩ := hv.four (hplain' rfl)
            simp only [List.length_cons] at hlen
            obtain ⟨n, out, rest, hm, hun, hout, hrest, hend⟩ := ih t.length (by omega) ht' rfl
            have hescape : escape ([117, b₁, b₂, b₃, b₄, 92, 117, e₁, e₂, e₃, e₄] ++ (t ++ [0])) =
                some (w, 11) := hw
            have hsecond := (nesting_escape 117 _).trans (nesting_run hes t)
            have hdeep := (nesting_escape 117 _).trans ((nesting_run hds _).trans hsecond)
            refine ⟨n + 4 + 1 + 4 + 1, w ++ out, rest, ?_,
              (unescape_escape hescape).trans (by rw [hun]; rfl), ?_, ?_,
              hend.of_eq hdeep⟩
            · have hrun := measure_run hes hm
              have hsecond := (measure_escape 117 _).trans (congrArg (Option.map (· + 1)) hrun)
              exact (measure_escape 117 _).trans
                (congrArg (Option.map (· + 1)) (measure_run hds hsecond))
            · rw [List.length_append]
              omega
            · omega
        · obtain ⟨n, out, rest, hm, hun, hout, hrest, hend⟩ := ih u.length (by omega) hu rfl
          refine ⟨n + 1, escaped c :: out, rest, ?_, ?_, Nat.succ_le_succ hout, by omega,
            hend.of_eq (nesting_escape c u)⟩
          · rw [List.cons_append, List.cons_append, measure_escape, hm]
            rfl
          · have hescape : escape ([c] ++ (u ++ [0])) = some ([escaped c], 1) := by
              simp [escape, hunit]
            exact (unescape_escape hescape).trans (by rw [hun]; rfl)
      · obtain ⟨n, out, rest, hm, hun, hout, hrest, hend⟩ := ih u.length (by simp at hlen; omega)
          (h.plain hquote hslash) rfl
        refine ⟨n + 1, b :: out, rest, measure_plain hquote hzero hslash hm, ?_,
          Nat.succ_le_succ hout, ?_,
          hend.of_eq (nesting_plain hquote hslash u)⟩
        · rw [List.cons_append, unescape_plain hquote hzero hslash, hun]
          rfl
        · simp at hlen
          omega

/-! ## Parts that are passed -/

/-- The bytes that end a text, or a place outside of a string, or a level of nesting. -/
def stops : Bytes := [0, 34, 91, 93, 123, 125]

/-- `b` is what is left of `a` behind some bytes that stop nothing. -/
def Past (a b : Bytes) : Prop := ∃ p, a = p ++ b ∧ ∀ c ∈ p, c ∉ stops

theorem Past.refl (a : Bytes) : Past a a := ⟨[], rfl, fun _ hc => absurd hc List.not_mem_nil⟩

theorem Past.trans {a b c : Bytes} (h : Past a b) (h' : Past b c) : Past a c := by
  obtain ⟨p, rfl, hp⟩ := h
  obtain ⟨p', rfl, hp'⟩ := h'
  refine ⟨p ++ p', (List.append_assoc p p' c).symm, fun d hd => ?_⟩
  rcases List.mem_append.mp hd with hd | hd
  · exact hp d hd
  · exact hp' d hd

theorem past_cons {b : UInt8} (hb : b ∉ stops) (t : Bytes) : Past (b :: t) t :=
  ⟨[b], rfl, fun _ hc => by rw [List.mem_singleton.mp hc]; exact hb⟩

theorem past_dropWhile {p : UInt8 → Bool} (hp : ∀ c ∈ stops, p c = false) (t : Bytes) :
    Past t (t.dropWhile p) := by
  refine ⟨t.takeWhile p, List.takeWhile_append_dropWhile.symm, fun c hc hstop => ?_⟩
  have htaken := List.mem_takeWhile_imp hc
  rw [hp c hstop] at htaken
  cases htaken

theorem past_skip (t : Bytes) : Past t (skip t) := past_dropWhile (by decide) t

theorem past_digits (t : Bytes) : Past t (t.dropWhile isDigit) := past_dropWhile (by decide) t

theorem digit_notMem_stops {b : UInt8} (h : isDigit b = true) : b ∉ stops := by
  have hall : ∀ c ∈ stops, isDigit c = false := by decide
  intro hb
  rw [hall b hb] at h
  cases h

theorem nesting_past {c : UInt8} (hc : c ∉ stops) (t : Bytes) :
    nesting .outside (c :: t) = nesting .outside t := by
  simp only [stops, List.mem_cons, List.not_mem_nil, or_false, not_or] at hc
  rw [nesting, if_neg hc.2.1, if_neg (by tauto), if_neg (by tauto)]

/-- What is behind a part of a text is a text too, no longer than it and nested as it was. -/
theorem Past.outside {t rest : Bytes} (h : Past (t ++ [0]) rest) (ht : Outside t) :
    ∃ r, rest = r ++ [0] ∧ Outside r ∧ r.length ≤ t.length ∧
      nesting .outside r = nesting .outside t := by
  obtain ⟨p, hp, hpassed⟩ := h
  induction p generalizing t with
  | nil => exact ⟨t, hp.symm, ht, le_rfl, rfl⟩
  | cons b p ih =>
    have hb := hpassed b List.mem_cons_self
    cases t with
    | nil =>
      rw [List.nil_append, List.cons_append, List.cons.injEq] at hp
      rw [← hp.1] at hb
      exact absurd (by decide) hb
    | cons c t =>
      rw [List.cons_append, List.cons_append, List.cons.injEq] at hp
      obtain ⟨rfl, hp⟩ := hp
      have hquote : c ≠ 34 := by
        rintro rfl
        exact absurd (by decide) hb
      obtain ⟨r, hr, hout, hlen, hdeep⟩ :=
        ih (ht.tail hquote) hp fun d hd => hpassed d (List.mem_cons_of_mem _ hd)
      exact ⟨r, hr, hout, Nat.le_succ_of_le hlen, hdeep.trans (nesting_past hb t).symm⟩

/-! ## Numbers -/

theorem past_behind {c : UInt8} (hc : c ∉ stops) (t : Bytes) : Past t (behind c t).2 := by
  cases t with
  | nil => exact Past.refl _
  | cons b t =>
    simp only [behind]
    split
    · next he =>
      subst he
      exact past_cons hc t
    · exact Past.refl _

theorem past_prefix {p t : Bytes} (h : p <+: t) (hdigits : ∀ b ∈ p, isDigit b = true) :
    Past t (t.drop p.length) := by
  obtain ⟨s, rfl⟩ := h
  rw [List.drop_left]
  exact ⟨p, rfl, fun b hb => digit_notMem_stops (hdigits b hb)⟩

theorem past_whole (t : Bytes) : Past t (t.drop (wholeDigits t).length) := by
  cases t with
  | nil => exact Past.refl _
  | cons b t =>
    simp only [wholeDigits]
    split
    · next hb =>
      simp only [Bool.and_eq_true, decide_eq_true_eq, UInt8.le_iff_toNat_le,
        UInt8.reduceToNat] at hb
      refine past_prefix (List.cons_prefix_cons.mpr ⟨rfl, List.takeWhile_prefix _⟩) ?_
      intro c hc
      rcases List.mem_cons.mp hc with rfl | hc
      · exact (isDigit_iff _).mpr ⟨by omega, hb.2⟩
      · exact List.mem_takeWhile_imp hc
    · exact Past.refl _

theorem past_fraction {t : Bytes} (hne : t ≠ []) (hlast : t ≠ [46]) :
    ∃ frac rest, fraction t = some (frac, rest) ∧ Past t rest := by
  match t, hne, hlast with
  | b :: t, _, hlast =>
    by_cases hb : b = 46
    · subst hb
      match t, hlast with
      | d :: t, _ =>
        simp only [fraction, if_true]
        split
        · exact ⟨_, _, rfl, (past_cons (by decide) _).trans (past_digits _)⟩
        · exact ⟨_, _, rfl, Past.refl _⟩
    · simp only [fraction, if_neg hb]
      exact ⟨_, _, rfl, Past.refl _⟩

theorem past_exponentSign (t : Bytes) : Past t (exponentSign t).2 := by
  cases t with
  | nil => exact Past.refl _
  | cons b t =>
    simp only [exponentSign]
    split
    · next he =>
      subst he
      exact past_cons (by decide) t
    split
    · next he =>
      subst he
      exact past_cons (by decide) t
    · exact Past.refl _

theorem past_exponent {t : Bytes} (hne : t ≠ []) :
    ∃ neg exp rest, exponent t = some (neg, exp, rest) ∧ Past t rest := by
  match t, hne with
  | b :: t, _ =>
    simp only [exponent]
    split
    · next hb =>
      have hpassed : b ∉ stops := by
        rw [Bool.or_eq_true, decide_eq_true_eq, decide_eq_true_eq] at hb
        rcases hb with rfl | rfl <;> decide
      exact ⟨_, _, _, rfl,
        (past_cons hpassed t).trans ((past_exponentSign t).trans (past_digits _))⟩
    · exact ⟨_, _, _, rfl, Past.refl _⟩

theorem Past.ne_nil {t rest : Bytes} (h : Past (t ++ [0]) rest) : rest ≠ [] ∧ rest ≠ [46] := by
  obtain ⟨p, hp, hpassed⟩ := h
  have hzero : 0 ∉ p := fun h => absurd (by decide) (hpassed 0 h)
  constructor
  · rintro rfl
    rw [List.append_nil] at hp
    exact hzero (by rw [← hp]; simp)
  · rintro rfl
    have hlast := congrArg List.getLast? hp
    simp at hlast

theorem parseNumber_past {D : Type} (fp : Doubles D) {t : Bytes} :
    ∃ item rest, parseNumber fp (t ++ [0]) = .taken item rest ∧ Past (t ++ [0]) rest := by
  have hsign := past_behind (c := 45) (by decide) (t ++ [0])
  have hzero := hsign.trans (past_behind (c := 48) (by decide) _)
  have hwhole := hzero.trans (past_whole _)
  obtain ⟨frac, rest, hfrac, hrest⟩ := past_fraction hwhole.ne_nil.1 hwhole.ne_nil.2
  have hfraction := hwhole.trans hrest
  obtain ⟨neg, exp, rest', hexp, hrest'⟩ := past_exponent hfraction.ne_nil.1
  have hexponent := hfraction.trans hrest'
  cases rest' with
  | nil => exact absurd rfl hexponent.ne_nil.1
  | cons b rest' =>
    simp only [parseNumber, hfrac, hexp]
    exact ⟨_, _, rfl, hexponent⟩

/-! ## What a parse function may come back with -/

/-- It came back, and when it took something, with a place of the text outside of any string behind
which no more than `k` brackets are open at once. -/
def Safe {α : Type} (k : Nat) (t : Bytes) : Parsed α → Prop
  | .deep => False
  | .overrun => False
  | .failed _ => True
  | .taken _ rest => ∃ r, rest = r ++ [0] ∧ Outside r ∧ r.length ≤ t.length ∧ nesting .outside r ≤ k

theorem Safe.map {α β : Type} {k : Nat} {t : Bytes} {p : Parsed α} (h : Safe k t p) (f : α → β) :
    Safe k t (p.map f) := by
  cases p with
  | deep => exact h
  | overrun => exact h
  | failed ep => exact h
  | taken a rest => exact h

theorem Safe.longer {α : Type} {k k' : Nat} {t t' : Bytes} {p : Parsed α} (h : Safe k t p)
    (hlen : t.length ≤ t'.length) (hk : k ≤ k') : Safe k' t' p := by
  cases p with
  | deep => exact h
  | overrun => exact h
  | failed ep => exact h
  | taken a rest =>
    obtain ⟨r, hr, hout, hle, hdeep⟩ := h
    exact ⟨r, hr, hout, hle.trans hlen, hdeep.trans hk⟩

theorem Safe.bind {α β : Type} {k k' : Nat} {t : Bytes} {p : Parsed α} {f : α → Bytes → Parsed β}
    (h : Safe k t p)
    (hf : ∀ a r, Outside r → r.length ≤ t.length → nesting .outside r ≤ k →
      Safe k' t (f a (r ++ [0]))) :
    Safe k' t (p.bind f) := by
  cases p with
  | deep => exact h
  | overrun => exact h
  | failed ep => trivial
  | taken a rest =>
    obtain ⟨r, rfl, hout, hle, hdeep⟩ := h
    exact hf a r hout hle hdeep

theorem safe_past {α : Type} {t rest : Bytes} (ht : Outside t) (h : Past (t ++ [0]) rest) (a : α) :
    Safe (nesting .outside t) t (.taken a rest) := by
  obtain ⟨r, hr, hout, hlen, hdeep⟩ := h.outside ht
  exact ⟨r, hr, hout, hlen, hdeep.le⟩

theorem parseString_safe {t : Bytes} (h : Outside t) :
    Safe (nesting .outside t) t (parseString (t ++ [0])) := by
  cases t with
  | nil => trivial
  | cons q t =>
    by_cases hq : q = 34
    · subst hq
      obtain ⟨n, out, rest, hm, hun, hout, hrest, hend⟩ := string_loops h.string
      have hparse : parseString (34 :: t ++ [0]) = .taken out (behind 34 (rest ++ [0])).2 := by
        simp [parseString, hm, hun, hout]
      rw [hparse]
      rcases hend with rfl | ⟨r, rfl, hr, hdeep⟩
      · exact ⟨[], rfl, ⟨List.not_mem_nil, rfl⟩, Nat.zero_le _, Nat.zero_le _⟩
      · refine ⟨r, rfl, hr, ?_, ?_⟩
        · simp only [List.length_cons] at hrest ⊢
          omega
        · rw [nesting, if_pos rfl]
          exact hdeep.le
    · have hparse : parseString (q :: t ++ [0]) = .failed (q :: t ++ [0]) := by
        simp [parseString, hq]
      rw [hparse]
      trivial

theorem startsWith_text {word : Bytes} (hword : 0 ∉ word) (t : Bytes) :
    ∃ b, startsWith word (t ++ [0]) = some b ∧ (b = true → word <+: t ++ [0]) := by
  induction word generalizing t with
  | nil => exact ⟨true, rfl, fun _ => List.nil_prefix⟩
  | cons w ws ih =>
    obtain ⟨hw, hws⟩ := notMem_tail hword
    cases t with
    | nil => exact ⟨false, by simp [startsWith, hw.symm], fun h => by cases h⟩
    | cons b t =>
      by_cases hb : b = w
      · obtain ⟨r, hr, hprefix⟩ := ih hws t
        refine ⟨r, by simp [startsWith, hb, hr], fun h => ?_⟩
        rw [hb]
        exact List.cons_prefix_cons.mpr ⟨rfl, hprefix h⟩
      · exact ⟨false, by simp [startsWith, hb], fun h => by cases h⟩

theorem past_word {word t : Bytes} (h : word <+: t) (hword : ∀ c ∈ word, c ∉ stops) :
    Past t (t.drop word.length) := by
  obtain ⟨s, rfl⟩ := h
  rw [List.drop_left]
  exact ⟨word, rfl, hword⟩

theorem keyword_past {D : Type} (t : Bytes) : keyword (D := D) (t ++ [0]) = some none ∨
    ∃ item rest, keyword (D := D) (t ++ [0]) = some (some (item, rest)) ∧ Past (t ++ [0]) rest := by
  obtain ⟨b₁, h₁, hp₁⟩ := startsWith_text (show 0 ∉ text "null" by decide) t
  obtain ⟨b₂, h₂, hp₂⟩ := startsWith_text (show 0 ∉ text "false" by decide) t
  obtain ⟨b₃, h₃, hp₃⟩ := startsWith_text (show 0 ∉ text "true" by decide) t
  simp only [keyword, h₁, h₂, h₃, Option.bind_eq_bind, Option.bind_some]
  cases b₁ with
  | true => exact Or.inr ⟨_, _, rfl, past_word (hp₁ rfl) (by decide)⟩
  | false =>
    cases b₂ with
    | true => exact Or.inr ⟨_, _, rfl, past_word (hp₂ rfl) (by decide)⟩
    | false =>
      cases b₃ with
      | true => exact Or.inr ⟨_, _, rfl, past_word (hp₃ rfl) (by decide)⟩
      | false => exact Or.inl rfl

/-! ## The parser stays in its text -/

section

variable {D : Type} {fp : Doubles D}

theorem skip_outside {t : Bytes} (h : Outside t) : ∃ r, skip (t ++ [0]) = r ++ [0] ∧ Outside r ∧
    r.length ≤ t.length ∧ nesting .outside r = nesting .outside t :=
  (past_skip (t ++ [0])).outside h

/-- The byte at a place of the text, and what is behind it when it is no quote: a place again, or
the NUL. -/
theorem place_cases (t : Bytes) :
    t ++ [0] = [0] ∧ t = [] ∨ ∃ b u, t = b :: u ∧ t ++ [0] = b :: (u ++ [0]) := by
  cases t with
  | nil => exact Or.inl ⟨rfl, rfl⟩
  | cons b u => exact Or.inr ⟨b, u, rfl, rfl⟩

mutual

/-- From any place outside of a string the parser comes back, behind what it took, when the stack
has room for the brackets that are open behind the place. The recursion is on the fuel, of which the
rest of the text always leaves enough. -/
theorem parseValue_safe (fuel stack : Nat) (t : Bytes) (h : Outside t)
    (hfuel : 3 * t.length + 1 ≤ fuel) (hstack : nesting .outside t ≤ stack) :
    Safe (nesting .outside t) t (parseValue fp fuel stack (t ++ [0])) := by
  match fuel, hfuel with
  | fuel + 1, hfuel =>
    rcases keyword_past t with hword | ⟨item, rest, hword, hpast⟩
    · unfold parseValue
      rw [hword]
      rcases place_cases t with ⟨ht, -⟩ | ⟨b, u, rfl, ht⟩
      · simp only [ht]
        exact trivial
      · simp only [ht]
        rw [List.length_cons] at hfuel
        split
        · rw [← ht]
          exact (parseString_safe h).map _
        next hquote =>
        split
        · rw [← ht]
          obtain ⟨item, rest, hparse, hpast⟩ := parseNumber_past fp (t := b :: u)
          rw [hparse]
          exact safe_past h hpast item
        obtain ⟨r, hr, hout, hlen, hdeep⟩ := skip_outside (h.tail hquote)
        rw [hr]
        split
        · next hb =>
          have hopen := nesting_open (Or.inl hb) u
          exact (parseArray_safe fuel stack r hout (by omega) (by omega)).longer
            (Nat.le_succ_of_le hlen) (by omega)
        split
        · next hb =>
          have hopen := nesting_open (Or.inr hb) u
          exact (parseObject_safe fuel stack r hout (by omega) (by omega)).longer
            (Nat.le_succ_of_le hlen) (by omega)
        · trivial
    · unfold parseValue
      rw [hword]
      exact safe_past h hpast item

theorem parseArray_safe (fuel stack : Nat) (t : Bytes) (h : Outside t)
    (hfuel : 3 * t.length + 3 ≤ fuel) (hstack : nesting .outside t + 1 ≤ stack) :
    Safe (nesting .outside t + 1) t (parseArray fp fuel stack (t ++ [0])) := by
  match fuel, stack, hfuel, hstack with
  | fuel + 1, stack + 1, hfuel, hstack =>
    have hitems := parseItems_safe fuel stack t h (by omega) (by omega)
    unfold parseArray
    rcases place_cases t with ⟨ht, -⟩ | ⟨b, u, rfl, ht⟩
    · rw [ht] at hitems ⊢
      exact hitems.map _
    · rw [ht] at hitems ⊢
      dsimp only
      split
      · next hb =>
        have hquote : b ≠ 34 := by rw [hb]; decide
        exact ⟨u, rfl, h.tail hquote, Nat.le_succ _, (nesting_tail hquote u).1⟩
      · exact hitems.map _

theorem parseItems_safe (fuel stack : Nat) (t : Bytes) (h : Outside t)
    (hfuel : 3 * t.length + 2 ≤ fuel) (hstack : nesting .outside t ≤ stack) :
    Safe (nesting .outside t + 1) t (parseItems fp fuel stack (t ++ [0])) := by
  match fuel, hfuel with
  | fuel + 1, hfuel =>
    rw [parseItems]
    obtain ⟨r, hr, hout, hlen, hdeep⟩ := skip_outside h
    rw [hr]
    refine ((parseValue_safe fuel stack r hout (by omega) (by omega)).longer hlen le_rfl).bind
      fun child v hv hvlen hvdeep => ?_
    obtain ⟨r', hr', hout', hlen', hdeep'⟩ := skip_outside hv
    rw [hr']
    rcases place_cases r' with ⟨ht, -⟩ | ⟨b, u, rfl, ht⟩
    · rw [ht]
      trivial
    · rw [ht]
      dsimp only
      rw [List.length_cons] at hlen'
      split
      · next hb =>
        have hquote : b ≠ 34 := by rw [hb]; decide
        have hcomma := (nesting_tail hquote u).2 (by rw [hb]; decide) (by rw [hb]; decide)
        exact ((parseItems_safe fuel stack u (hout'.tail hquote) (by omega) (by omega)).map
          _).longer (by omega)
          (by omega)
      split
      · next hb =>
        have hquote : b ≠ 34 := by rw [hb]; decide
        have hend := (nesting_tail hquote u).1
        exact ⟨u, rfl, hout'.tail hquote, by omega, by omega⟩
      · trivial

theorem parseObject_safe (fuel stack : Nat) (t : Bytes) (h : Outside t)
    (hfuel : 3 * t.length + 3 ≤ fuel) (hstack : nesting .outside t + 1 ≤ stack) :
    Safe (nesting .outside t + 1) t (parseObject fp fuel stack (t ++ [0])) := by
  match fuel, stack, hfuel, hstack with
  | fuel + 1, stack + 1, hfuel, hstack =>
    have hmembers := parseMembers_safe fuel stack t h (by omega) (by omega)
    unfold parseObject
    rcases place_cases t with ⟨ht, -⟩ | ⟨b, u, rfl, ht⟩
    · rw [ht] at hmembers ⊢
      exact hmembers.map _
    · rw [ht] at hmembers ⊢
      dsimp only
      split
      · next hb =>
        have hquote : b ≠ 34 := by rw [hb]; decide
        exact ⟨u, rfl, h.tail hquote, Nat.le_succ _, (nesting_tail hquote u).1⟩
      · exact hmembers.map _

theorem parseMembers_safe (fuel stack : Nat) (t : Bytes) (h : Outside t)
    (hfuel : 3 * t.length + 2 ≤ fuel) (hstack : nesting .outside t ≤ stack) :
    Safe (nesting .outside t + 1) t (parseMembers fp fuel stack (t ++ [0])) := by
  match fuel, hfuel with
  | fuel + 1, hfuel =>
    rw [parseMembers]
    obtain ⟨r, hr, hout, hlen, hdeep⟩ := skip_outside h
    rw [hr]
    refine ((parseString_safe hout).longer hlen le_rfl).bind fun name v hv hvlen hvdeep => ?_
    obtain ⟨r', hr', hout', hlen', hdeep'⟩ := skip_outside hv
    rw [hr']
    rcases place_cases r' with ⟨ht, -⟩ | ⟨c, u, rfl, ht⟩
    · rw [ht]
      trivial
    · rw [ht]
      dsimp only
      rw [List.length_cons] at hlen'
      split
      · trivial
      next hcolon =>
      have hc : c = 58 := not_not.mp hcolon
      have hquote : c ≠ 34 := by rw [hc]; decide
      have hmore := (nesting_tail hquote u).2 (by rw [hc]; decide) (by rw [hc]; decide)
      obtain ⟨r₂, hr₂, hout₂, hlen₂, hdeep₂⟩ := skip_outside (hout'.tail hquote)
      rw [hr₂]
      refine ((parseValue_safe fuel stack r₂ hout₂ (by omega) (by omega)).longer (by omega)
        le_rfl).bind
        fun child w hw hwlen hwdeep => ?_
      obtain ⟨r₃, hr₃, hout₃, hlen₃, hdeep₃⟩ := skip_outside hw
      rw [hr₃]
      rcases place_cases r₃ with ⟨ht₃, -⟩ | ⟨b, x, rfl, ht₃⟩
      · rw [ht₃]
        trivial
      · rw [ht₃]
        dsimp only
        rw [List.length_cons] at hlen₃
        split
        · next hb =>
          have hquote' : b ≠ 34 := by rw [hb]; decide
          have hcomma := (nesting_tail hquote' x).2 (by rw [hb]; decide) (by rw [hb]; decide)
          exact ((parseMembers_safe fuel stack x (hout₃.tail hquote') (by omega) (by omega)).map
            _).longer (by omega)
            (by omega)
        split
        · next hb =>
          have hquote' : b ≠ 34 := by rw [hb]; decide
          have hend := (nesting_tail hquote' x).1
          exact ⟨x, rfl, hout₃.tail hquote', by omega, by omega⟩
        · trivial

end

theorem cJSON_ParseWithOpts_safe {t : Bytes} (h : Outside t) {stack : Nat}
    (hstack : nesting .outside t ≤ stack) (require_null_terminated : Bool) :
    Safe (nesting .outside t) t
      (cJSON_ParseWithOpts fp stack (t ++ [0]) require_null_terminated) := by
  obtain ⟨r, hr, hout, hlen, hdeep⟩ := skip_outside h
  have hfuel : 3 * r.length + 1 ≤ fuelFor (t ++ [0]) := by
    simp only [fuelFor, List.length_append, List.length_singleton]
    omega
  rw [cJSON_ParseWithOpts, hr]
  refine ((parseValue_safe _ stack r hout hfuel (by omega)).longer hlen hdeep.le).bind
    fun c v hv hvlen hvdeep => ?_
  cases require_null_terminated
  · exact ⟨v, rfl, hv, hvlen, hvdeep⟩
  · obtain ⟨r', hr', hout', hlen', hdeep'⟩ := skip_outside hv
    rw [hr', if_pos rfl]
    rcases place_cases r' with ⟨ht, -⟩ | ⟨b, u, rfl, ht⟩
    · rw [ht]
      exact ⟨[], rfl, ⟨List.not_mem_nil, rfl⟩, Nat.zero_le _, Nat.zero_le _⟩
    · rw [ht]
      dsimp only
      split
      · trivial
      · exact ⟨b :: u, rfl, hout', hlen'.trans hvlen, hdeep'.le.trans hvdeep⟩

/-- Whatever a C string holds, the parser comes back from it without a read behind its NUL or a
write behind a buffer, when the escapes of its strings are all there and no more brackets are open
at once than the stack has room for. What it took ends in the text. -/
theorem the_parser_stays_in_a_text_with_complete_escapes {t : Bytes} (hzero : 0 ∉ t)
    (h : wellEscaped false t = true) {stack : Nat} (hstack : nesting .outside t ≤ stack)
    (require_null_terminated : Bool) :
    (∃ ep, cJSON_ParseWithOpts fp stack (t ++ [0]) require_null_terminated = .failed ep) ∨
      ∃ item r, cJSON_ParseWithOpts fp stack (t ++ [0]) require_null_terminated =
        .taken item (r ++ [0]) ∧
        r.length ≤ t.length := by
  have hsafe := @cJSON_ParseWithOpts_safe D fp t ⟨hzero, h⟩ stack hstack require_null_terminated
  cases hp : cJSON_ParseWithOpts fp stack (t ++ [0]) require_null_terminated with
  | deep =>
    rw [hp] at hsafe
    exact absurd hsafe id
  | overrun =>
    rw [hp] at hsafe
    exact absurd hsafe id
  | failed ep => exact Or.inl ⟨ep, rfl⟩
  | taken item rest =>
    rw [hp] at hsafe
    obtain ⟨r, rfl, -, hlen, -⟩ := hsafe
    exact Or.inr ⟨item, r, rfl, hlen⟩

end

theorem a_broken_text_is_left_in_place :
    (∃ ep, cJSON_ParseWithOpts wholeDoubles 2 (text "[[\"\\u12x4[[\", -.e, \"" ++ [0]) false =
      .failed ep) ∨
      ∃ item r, cJSON_ParseWithOpts wholeDoubles 2 (text "[[\"\\u12x4[[\", -.e, \"" ++ [0]) false =
          .taken item (r ++ [0]) ∧
        r.length ≤ (text "[[\"\\u12x4[[\", -.e, \"").length :=
  the_parser_stays_in_a_text_with_complete_escapes (by decide) (by decide) (by decide) false

end util.cjson
