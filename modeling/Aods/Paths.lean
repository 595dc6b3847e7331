-- Paths as strings of components, and their lexical resolution: an empty component and "."
-- are left out, and ".." takes back the name before it. A walk that would climb above the
-- place where it began comes to nothing.
import Aods.Machine

open machine

namespace paths

/-- Both separators are taken for one. -/
def isSep (b : UInt8) : Bool := b = 47 || b = 92

def dot : Bytes := [46]

def dotDot : Bytes := [46, 46]

/-- The components that a separator closes, and what lies behind the last separator. -/
def cut : Bytes → List Bytes × Bytes
  | [] => ([], [])
  | b :: p =>
    if isSep b then ([] :: (cut p).1, (cut p).2)
    else
      match (cut p).1 with
      | [] => ([], b :: (cut p).2)
      | d :: ds => ((b :: d) :: ds, (cut p).2)

def comps (p : Bytes) : List Bytes := (cut p).1 ++ [(cut p).2]

/-- The path begins with a separator. -/
def rooted (p : Bytes) : Bool := (p.head?.map isSep).getD false

/-- The names behind some components, from the names before them. -/
def walk : List Bytes → List Bytes → Option (List Bytes)
  | names, [] => some names
  | names, c :: cs =>
    if c = [] ∨ c = dot then walk names cs
    else if c = dotDot then if names = [] then none else walk names.dropLast cs
    else walk (names ++ [c]) cs

/-- Where a path leads: whether it begins at the root, and the names from there. -/
def resolve (p : Bytes) : Option (Bool × List Bytes) :=
  (walk [] (comps p)).map (fun names => (rooted p, names))

/-- A path leads to a directory, or to a place below it. -/
def Under (dir p : Bytes) : Prop :=
  ∃ root names names', resolve dir = some (root, names) ∧ resolve p = some (root, names') ∧
    names <+: names'

instance (dir p : Bytes) : Decidable (Under dir p) :=
  match hdir : resolve dir, hp : resolve p with
  | some (root, names), some (root', names') =>
    decidable_of_iff (root = root' ∧ names <+: names') (by
      unfold Under
      rw [hdir, hp]
      constructor
      · rintro ⟨rfl, hbegins⟩
        exact ⟨root, names, names', rfl, rfl, hbegins⟩
      · rintro ⟨_, _, _, h, h', hbegins⟩
        cases h
        cases h'
        exact ⟨rfl, hbegins⟩)
  | none, _ => isFalse (by
      rintro ⟨_, _, _, h, _⟩
      rw [hdir] at h
      cases h)
  | some _, none => isFalse (by
      rintro ⟨_, _, _, _, h, _⟩
      rw [hp] at h
      cases h)

/-- A component that is a name. -/
def Proper (c : Bytes) : Prop := c ≠ [] ∧ c ≠ dot ∧ c ≠ dotDot

/-- No separator in a component. -/
def Whole (c : Bytes) : Prop := ∀ b ∈ c, isSep b = false

/-! ## Components -/

theorem comps_ne_nil (p : Bytes) : comps p ≠ [] := by
  simp [comps]

theorem comps_sep {b : UInt8} (h : isSep b = true) (p : Bytes) :
    comps (b :: p) = [] :: comps p := by
  simp [comps, cut, h]

theorem comps_cons {b : UInt8} (h : isSep b = false) (p : Bytes) :
    ∃ d ds, comps p = d :: ds ∧ comps (b :: p) = (b :: d) :: ds := by
  simp only [comps, cut, h, Bool.false_eq_true, if_false]
  cases hp : (cut p).1 with
  | nil => exact ⟨(cut p).2, [], rfl, rfl⟩
  | cons d ds => exact ⟨d, ds ++ [(cut p).2], rfl, rfl⟩

theorem comps_eq_nil {p : Bytes} (h : comps p = [[]]) : p = [] := by
  cases p with
  | nil => rfl
  | cons b p =>
    cases hb : isSep b with
    | true =>
      rw [comps_sep hb, List.cons.injEq] at h
      exact absurd h.2 (comps_ne_nil p)
    | false =>
      obtain ⟨d, ds, _, hbp⟩ := comps_cons hb p
      rw [hbp] at h
      cases h

/-- A separator stands between the components before it and those behind it. -/
theorem comps_append {b : UInt8} (h : isSep b = true) (p q : Bytes) :
    comps (p ++ b :: q) = comps p ++ comps q := by
  induction p with
  | nil =>
    rw [List.nil_append, comps_sep h]
    rfl
  | cons a p ih =>
    rw [List.cons_append]
    cases ha : isSep a with
    | true => rw [comps_sep ha, comps_sep ha, ih, List.cons_append]
    | false =>
      obtain ⟨d, ds, hp, hap⟩ := comps_cons ha p
      obtain ⟨d', ds', hpq, hapq⟩ := comps_cons ha (p ++ b :: q)
      rw [ih, hp, List.cons_append] at hpq
      cases hpq
      rw [hapq, hap, List.cons_append]

theorem comps_whole {c : Bytes} (h : Whole c) : comps c = [c] := by
  induction c with
  | nil => rfl
  | cons b c ih =>
    obtain ⟨d, ds, hc, hbc⟩ := comps_cons (h b List.mem_cons_self) c
    rw [ih (fun b' hb' => h b' (List.mem_cons_of_mem b hb'))] at hc
    cases hc
    exact hbc

theorem whole_comps (p : Bytes) : ∀ c ∈ comps p, Whole c := by
  induction p with
  | nil =>
    intro c hc
    rw [show comps [] = [[]] from rfl, List.mem_singleton] at hc
    subst hc
    intro b hb
    cases hb
  | cons b p ih =>
    intro c hc
    cases hb : isSep b with
    | true =>
      rw [comps_sep hb] at hc
      rcases List.mem_cons.mp hc with rfl | hc
      · intro b' hb'
        cases hb'
      · exact ih c hc
    | false =>
      obtain ⟨d, ds, hp, hbp⟩ := comps_cons hb p
      rw [hbp] at hc
      rw [hp] at ih
      rcases List.mem_cons.mp hc with rfl | hc
      · intro b' hb'
        rcases List.mem_cons.mp hb' with rfl | hb'
        · exact hb
        · exact ih d List.mem_cons_self b' hb'
      · exact ih c (List.mem_cons_of_mem d hc)

/-- A path begins at the root when its first component is empty, and there is another. -/
theorem rooted_iff {p c : Bytes} {cs : List Bytes} (h : comps p = c :: cs) :
    rooted p = true ↔ c = [] ∧ cs ≠ [] := by
  cases p with
  | nil =>
    rw [show comps [] = [[]] from rfl] at h
    cases h
    simp [rooted]
  | cons b p =>
    cases hb : isSep b with
    | true =>
      rw [comps_sep hb] at h
      cases h
      simp [rooted, hb, comps_ne_nil]
    | false =>
      obtain ⟨d, ds, _, hbp⟩ := comps_cons hb p
      rw [hbp] at h
      cases h
      simp [rooted, hb]

/-! ## Walks -/

theorem comp_cases (c : Bytes) : (c = [] ∨ c = dot) ∨ c = dotDot ∨ Proper c := by
  by_cases h0 : c = [] ∨ c = dot
  · exact Or.inl h0
  · rw [not_or] at h0
    by_cases h2 : c = dotDot
    · exact Or.inr (Or.inl h2)
    · exact Or.inr (Or.inr ⟨h0.1, h0.2, h2⟩)

theorem walk_skip {c : Bytes} (h : c = [] ∨ c = dot) (names cs : List Bytes) :
    walk names (c :: cs) = walk names cs := by
  rw [walk, if_pos h]

theorem walk_up (names cs : List Bytes) :
    walk names (dotDot :: cs) = if names = [] then none else walk names.dropLast cs := by
  rw [walk, if_neg (by decide), if_pos rfl]

theorem walk_name {c : Bytes} (h : Proper c) (names cs : List Bytes) :
    walk names (c :: cs) = walk (names ++ [c]) cs := by
  obtain ⟨h0, h1, h2⟩ := h
  rw [walk, if_neg (by simp [h0, h1]), if_neg h2]

theorem walk_append (names cs ds : List Bytes) :
    walk names (cs ++ ds) = (walk names cs).bind (fun names' => walk names' ds) := by
  induction cs generalizing names with
  | nil => rfl
  | cons c cs ih =>
    rw [List.cons_append]
    rcases comp_cases c with h | rfl | h
    · rw [walk_skip h, walk_skip h, ih]
    · rw [walk_up, walk_up]
      split
      · rfl
      · exact ih _
    · rw [walk_name h, walk_name h, ih]

theorem walk_behind {names names' cs : List Bytes} (h : walk names cs = some names')
    (base : List Bytes) :
    walk (base ++ names) cs = some (base ++ names') := by
  induction cs generalizing names with
  | nil =>
    cases h
    rfl
  | cons c cs ih =>
    rcases comp_cases c with hc | rfl | hc
    · rw [walk_skip hc] at h ⊢
      exact ih h
    · rw [walk_up] at h ⊢
      split at h
      · cases h
      · rename_i hne
        rw [if_neg (by simp [hne]), List.dropLast_append_of_ne_nil hne]
        exact ih h
    · rw [walk_name hc] at h ⊢
      rw [List.append_assoc]
      exact ih h

theorem walk_proper {names names' cs : List Bytes} (h : walk names cs = some names')
    (hnames : ∀ c ∈ names, Proper c ∧ Whole c) (hcs : ∀ c ∈ cs, Whole c) :
    ∀ c ∈ names', Proper c ∧ Whole c := by
  induction cs generalizing names with
  | nil =>
    cases h
    exact hnames
  | cons c cs ih =>
    have hrest : ∀ c ∈ cs, Whole c := fun c' hc' => hcs c' (List.mem_cons_of_mem c hc')
    rcases comp_cases c with hc | rfl | hc
    · rw [walk_skip hc] at h
      exact ih h hnames hrest
    · rw [walk_up] at h
      split at h
      · cases h
      · exact ih h (fun c' hc' => hnames c' (List.dropLast_subset names hc')) hrest
    · rw [walk_name hc] at h
      refine ih h (fun c' hc' => ?_) hrest
      rcases List.mem_append.mp hc' with hc' | hc'
      · exact hnames c' hc'
      · rw [List.mem_singleton.mp hc']
        exact ⟨hc, hcs c List.mem_cons_self⟩

theorem walk_names {ds : List Bytes} (h : ∀ c ∈ ds, Proper c) (names : List Bytes) :
    walk names ds = some (names ++ ds) := by
  induction ds generalizing names with
  | nil => simp [walk]
  | cons d ds ih =>
    rw [walk_name (h d List.mem_cons_self), ih (fun c hc => h c (List.mem_cons_of_mem d hc)),
      List.append_assoc]
    rfl

theorem walk_dropLast {names names' cs : List Bytes} (h : walk names cs = some names')
    (hcs : cs ≠ []) :
    ∃ before, walk names cs.dropLast = some before ∧
      walk before [cs.getLast hcs] = some names' := by
  rw [← List.dropLast_concat_getLast hcs, walk_append] at h
  exact Option.bind_eq_some_iff.mp h

/-! ## Walks along some names -/

/-- A walk over some components, from the place that it has come to: each step comes to a place
on the way to some names or below them, and goes up from below only. -/
def Along (names : List Bytes) : List Bytes → List Bytes → Prop
  | _, [] => True
  | place, c :: cs =>
    if c = [] ∨ c = dot then Along names place cs
    else if c = dotDot then place ≠ [] ∧ names <+: place.dropLast ∧ Along names place.dropLast cs
    else (place ++ [c] <+: names ∨ names <+: place ++ [c]) ∧ Along names (place ++ [c]) cs

variable {base place place' : List Bytes}

theorem along_skip {c : Bytes} (h : c = [] ∨ c = dot) (base place cs : List Bytes) :
    Along base place (c :: cs) ↔ Along base place cs := by
  rw [Along, if_pos h]

theorem along_up (base place cs : List Bytes) : Along base place (dotDot :: cs) ↔
    place ≠ [] ∧ base <+: place.dropLast ∧ Along base place.dropLast cs := by
  rw [Along, if_neg (by decide), if_pos rfl]

theorem along_name {c : Bytes} (h : Proper c) (base place cs : List Bytes) :
    Along base place (c :: cs) ↔
    (place ++ [c] <+: base ∨ base <+: place ++ [c]) ∧ Along base (place ++ [c]) cs := by
  obtain ⟨h0, h1, h2⟩ := h
  rw [Along, if_neg (by simp [h0, h1]), if_neg h2]

theorem along_append {cs ds : List Bytes} (h : Along base place (cs ++ ds)) :
    Along base place cs ∧ ∀ place', walk place cs = some place' → Along base place' ds := by
  induction cs generalizing place with
  | nil =>
    refine ⟨trivial, fun place' hwalk => ?_⟩
    cases hwalk
    exact h
  | cons c cs ih =>
    rw [List.cons_append] at h
    rcases comp_cases c with hc | rfl | hc
    · rw [along_skip hc] at h ⊢
      rw [walk_skip hc]
      exact ih h
    · rw [along_up] at h ⊢
      obtain ⟨hne, hbegins, h⟩ := h
      rw [walk_up, if_neg hne]
      exact ⟨⟨hne, hbegins, (ih h).1⟩, (ih h).2⟩
    · rw [along_name hc] at h ⊢
      rw [walk_name hc]
      exact ⟨⟨h.1, (ih h.2).1⟩, (ih h.2).2⟩

/-- A walk that comes to a place, and goes on along the names from there. -/
theorem along_trans {cs ds : List Bytes} (h : Along base place cs)
    (hwalk : walk place cs = some place') (hds : Along base place' ds) :
    Along base place (cs ++ ds) := by
  induction cs generalizing place with
  | nil =>
    cases hwalk
    exact hds
  | cons c cs ih =>
    rw [List.cons_append]
    rcases comp_cases c with hc | rfl | hc
    · rw [along_skip hc] at h ⊢
      rw [walk_skip hc] at hwalk
      exact ih h hwalk
    · rw [along_up] at h ⊢
      obtain ⟨hne, hbegins, h⟩ := h
      rw [walk_up, if_neg hne] at hwalk
      exact ⟨hne, hbegins, ih h hwalk⟩
    · rw [along_name hc] at h ⊢
      rw [walk_name hc] at hwalk
      exact ⟨h.1, ih h.2 hwalk⟩

/-- What is walked to from below some names, and never above them. -/
theorem along_below (base : List Bytes) {cs : List Bytes} (h : walk place cs = some place') :
    Along base (base ++ place) cs := by
  induction cs generalizing place with
  | nil => exact trivial
  | cons c cs ih =>
    rcases comp_cases c with hc | rfl | hc
    · rw [walk_skip hc] at h
      rw [along_skip hc]
      exact ih h
    · rw [walk_up] at h
      split at h
      · cases h
      · rename_i hne
        rw [along_up, List.dropLast_append_of_ne_nil hne]
        exact ⟨List.append_ne_nil_of_right_ne_nil _ hne, List.prefix_append .., ih h⟩
    · rw [walk_name hc] at h
      rw [along_name hc, List.append_assoc]
      exact ⟨Or.inr (List.prefix_append ..), ih h⟩

/-- A walk that never goes up comes to its names along them. -/
theorem along_down {cs : List Bytes} (h : walk place cs = some base) (hdown : dotDot ∉ cs) :
    place <+: base ∧ Along base place cs := by
  induction cs generalizing place with
  | nil =>
    cases h
    exact ⟨List.prefix_refl _, trivial⟩
  | cons c cs ih =>
    rw [List.mem_cons, not_or] at hdown
    rcases comp_cases c with hc | rfl | hc
    · rw [walk_skip hc] at h
      rw [along_skip hc]
      exact ih h hdown.2
    · exact absurd rfl hdown.1
    · rw [walk_name hc] at h
      obtain ⟨hbegins, halong⟩ := ih h hdown.2
      rw [along_name hc]
      exact ⟨(List.prefix_append ..).trans hbegins, Or.inl hbegins, halong⟩

/-- One place is below some names, or it is the other and on the way to them. -/
def Follows (base place' place : List Bytes) : Prop :=
  place.length ≤ place'.length ∧ (base <+: place' ∨ place' = place ∧ place' <+: base)

/-- A place that follows another keeps following it. -/
theorem Follows.walk {cs : List Bytes} (h : Follows base place' place)
    (halong : Along base place cs) :
    ∃ there there', walk place cs = some there ∧ walk place' cs = some there' ∧
      Follows base there' there := by
  induction cs generalizing place place' with
  | nil => exact ⟨place, place', rfl, rfl, h⟩
  | cons c cs ih =>
    obtain ⟨hlen, hplace⟩ := h
    rcases comp_cases c with hc | rfl | hc
    · rw [along_skip hc] at halong
      rw [walk_skip hc, walk_skip hc]
      exact ih ⟨hlen, hplace⟩ halong
    · rw [along_up] at halong
      obtain ⟨hne, hbegins, halong⟩ := halong
      have hpos := List.length_pos_iff.mpr hne
      have hne' : place' ≠ [] := List.length_pos_iff.mp (by omega)
      have hbase := hbegins.length_le
      rw [List.length_dropLast] at hbase
      rw [walk_up, walk_up, if_neg hne, if_neg hne']
      refine ih ⟨?_, Or.inl ?_⟩ halong
      · rw [List.length_dropLast, List.length_dropLast]
        omega
      · rcases hplace with hbelow | ⟨rfl, _⟩
        · apply List.prefix_of_prefix_length_le hbelow (List.dropLast_prefix place')
          rw [List.length_dropLast]
          omega
        · exact hbegins
    · rw [along_name hc] at halong
      obtain ⟨hstep, halong⟩ := halong
      rw [walk_name hc, walk_name hc]
      refine ih ⟨?_, ?_⟩ halong
      · rw [List.length_append, List.length_append]
        exact Nat.add_le_add_right hlen _
      · rcases hplace with hbelow | ⟨rfl, _⟩
        · exact Or.inl (hbelow.trans (List.prefix_append ..))
        · rcases hstep with hon | hbelow
          · exact Or.inr ⟨rfl, hon⟩
          · exact Or.inl hbelow

/-- A place that follows another is on the way to the names, or below them. -/
theorem Follows.near (h : Follows base place' place) : place' <+: base ∨ base <+: place' := by
  rcases h.2 with hbelow | ⟨_, hon⟩
  · exact Or.inr hbelow
  · exact Or.inl hon

/-! ## Anchored paths -/

/-- A path that begins at the root or at a name, and never climbs above it: its first component
behind some ".", what follows, and the names that this comes to. -/
structure Anchored (p c : Bytes) (rest names : List Bytes) : Prop where
  comps_eq : ∃ dots, comps p = dots ++ c :: rest ∧ (∀ d ∈ dots, d = dot) ∧ (c = [] → dots = [])
  start : c ≠ dot ∧ c ≠ dotDot
  walks : walk [] rest = some names
  more : c = [] → rest ≠ []

/-- The names of the first component of an anchored path. -/
def first (c : Bytes) : List Bytes := if c = [] then [] else [c]

theorem walk_dots {dots : List Bytes} (h : ∀ d ∈ dots, d = dot) (names cs : List Bytes) :
    walk names (dots ++ cs) = walk names cs := by
  induction dots with
  | nil => rfl
  | cons d dots ih =>
    rw [List.cons_append, walk_skip (Or.inr (h d List.mem_cons_self)),
      ih (fun d' hd' => h d' (List.mem_cons_of_mem d hd'))]

theorem Anchored.resolve {p c : Bytes} {rest names : List Bytes} (h : Anchored p c rest names) :
    resolve p = some (decide (c = []), first c ++ names) := by
  obtain ⟨⟨dots, hcomps, hdots, hroot⟩, ⟨h1, h2⟩, hwalk, hmore⟩ := h
  unfold paths.resolve
  rw [hcomps, walk_dots hdots]
  by_cases hc : c = []
  · have hrooted : rooted p = true := by
      rw [hroot hc, List.nil_append] at hcomps
      exact (rooted_iff hcomps).mpr ⟨hc, hmore hc⟩
    rw [walk_skip (Or.inl hc), hwalk]
    simp [hrooted, hc, first]
  · have hrooted : rooted p = false := by
      cases dots with
      | nil => simpa [hc] using rooted_iff hcomps
      | cons d dots =>
        have hd := hdots d List.mem_cons_self
        simpa [hd, dot] using rooted_iff hcomps
    rw [walk_name ⟨hc, h1, h2⟩, List.nil_append]
    have hbehind := walk_behind hwalk [c]
    rw [List.append_nil] at hbehind
    rw [hbehind]
    simp [hrooted, hc, first]

theorem Anchored.proper {p c : Bytes} {rest names : List Bytes} (h : Anchored p c rest names) :
    ∀ d ∈ names, Proper d := by
  obtain ⟨dots, hcomps, _⟩ := h.comps_eq
  have hproper :=
    walk_proper h.walks (by simp) (fun d hd => whole_comps p d (by rw [hcomps]; simp [hd]))
  exact fun d hd => (hproper d hd).1

/-- Names, and a walk from them that never climbs above them. -/
theorem along_names {names names' cs : List Bytes} (h : ∀ d ∈ names, Proper d)
    (hcs : walk [] cs = some names') :
    Along names [] (names ++ cs) := by
  have hwalk : walk [] names = some names := walk_names h []
  have hdown : dotDot ∉ names := fun hmem => (h dotDot hmem).2.2 rfl
  have hbelow := along_below names hcs
  rw [List.append_nil] at hbelow
  exact along_trans (along_down hwalk hdown).2 hwalk hbelow

/-- A path without "..", and a walk from it that never climbs above it. -/
theorem Anchored.along {p c : Bytes} {rest names names' cs : List Bytes}
    (h : Anchored p c rest names) (hdown : dotDot ∉ comps p) (hcs : walk [] cs = some names') :
    Along names [] (rest ++ cs) := by
  have hrest : dotDot ∉ rest := by
    obtain ⟨dots, hcomps, _⟩ := h.comps_eq
    rw [hcomps] at hdown
    exact fun hmem => hdown (by simp [hmem])
  have hbelow := along_below names hcs
  rw [List.append_nil] at hbelow
  exact along_trans (along_down h.walks hrest).2 h.walks hbelow

/-- Two paths from one beginning, of which one goes on from the names of the other. -/
theorem Anchored.under {dir p c : Bytes} {rest names rest' names' : List Bytes}
    (h : Anchored dir c rest names) (h' : Anchored p c rest' names') (hnames : names <+: names') :
    Under dir p :=
  ⟨_, _, _, h.resolve, h'.resolve, (List.prefix_append_right_inj _).mpr hnames⟩

/-- What is appended behind a separator goes on from the names of an anchored path. -/
theorem Anchored.append {p c q : Bytes} {rest names names' : List Bytes} {b : UInt8}
    (h : Anchored p c rest names) (hb : isSep b = true) (hq : walk [] (comps q) = some names') :
    Anchored (p ++ b :: q) c (rest ++ comps q) (names ++ names') := by
  obtain ⟨⟨dots, hcomps, hdots, hroot⟩, hstart, hwalk, hmore⟩ := h
  refine ⟨⟨dots, ?_, hdots, hroot⟩, hstart, ?_, fun _ => List.append_ne_nil_of_right_ne_nil _
    (comps_ne_nil q)⟩
  · rw [comps_append hb, hcomps, List.append_assoc, List.cons_append]
  · have hbehind := walk_behind hq names
    rw [List.append_nil] at hbehind
    rw [walk_append, hwalk]
    exact hbehind

end paths
