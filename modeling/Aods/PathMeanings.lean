-- What a path denotes, and what becomes of it when `ToStandardlPath` normalises it. The list
-- of the normaliser is the names that the path has come to, behind an empty component for
-- the root. A ".." at the front is lost and takes the root with it, and an empty component
-- makes a root wherever no name is left.
import Aods.FileControl
import Mathlib.Data.List.Basic
import Mathlib.Data.List.Induction

open machine

namespace paths

/-- A place as a path tells it: from the root or from the directory that one is in, some levels
up, and the names from there. -/
structure Place where
  root : Bool
  ups : Nat
  names : List Bytes
  deriving DecidableEq, Repr

/-- One component. Where no name is left ".." stays at the root, and goes up elsewhere. -/
def Place.step (pl : Place) (c : Bytes) : Place :=
  if c = [] ∨ c = dot then pl
  else if c = dotDot then
    if pl.names ≠ [] then { pl with names := pl.names.dropLast }
    else if pl.root then pl
    else { pl with ups := pl.ups + 1 }
  else { pl with names := pl.names ++ [c] }

/-- Where components lead, from the root or from the directory that one is in. -/
def place (root : Bool) (cs : List Bytes) : Place := cs.foldl Place.step ⟨root, 0, []⟩

/-- The place of a path. The empty path denotes nothing. -/
def denotes (p : Bytes) : Option Place := if p = [] then none else some (place (rooted p) (comps p))

/-! ## Steps -/

theorem step_skip {c : Bytes} (h : c = [] ∨ c = dot) (pl : Place) : pl.step c = pl := by
  rw [Place.step, if_pos h]

theorem step_name {c : Bytes} (h : Proper c) (pl : Place) :
    pl.step c = { pl with names := pl.names ++ [c] } := by
  obtain ⟨h0, h1, h2⟩ := h
  rw [Place.step, if_neg (by simp [h0, h1]), if_neg h2]

theorem step_up_names (pl : Place) : (pl.step dotDot).names = pl.names.dropLast := by
  rw [Place.step, if_neg (by decide), if_pos rfl]
  split
  · rfl
  · rename_i h
    rw [not_not] at h
    split
    · simp [h]
    · simp [h]

@[simp] theorem step_root (pl : Place) (c : Bytes) : (pl.step c).root = pl.root := by
  unfold Place.step
  split_ifs <;> rfl

theorem place_snoc (root : Bool) (cs : List Bytes) (c : Bytes) :
    place root (cs ++ [c]) = (place root cs).step c := by
  rw [place, List.foldl_append]
  rfl

@[simp] theorem place_root (root : Bool) (cs : List Bytes) : (place root cs).root = root := by
  induction cs using List.reverseRecOn with
  | nil => rfl
  | append_singleton cs c ih => rw [place_snoc, step_root, ih]

theorem place_ups_of_root (cs : List Bytes) : (place true cs).ups = 0 := by
  induction cs using List.reverseRecOn with
  | nil => rfl
  | append_singleton cs c ih =>
    rw [place_snoc]
    unfold Place.step
    split_ifs with h1 h2 h3 h4
    · exact ih
    · exact ih
    · exact ih
    · exact absurd (place_root true cs) h4
    · exact ih

/-- A last step tells two places apart just when they were. -/
theorem step_inj_iff {root root' : Bool} {ups : Nat} {names : List Bytes}
    (h : root' = true → ups = 0) (c : Bytes) :
    (Place.mk root 0 names).step c = (Place.mk root' ups names).step c ↔
      root = root' ∧ ups = 0 := by
  constructor
  · intro heq
    have hroot := congrArg Place.root heq
    rw [step_root, step_root] at hroot
    dsimp only at hroot
    subst hroot
    refine ⟨rfl, ?_⟩
    cases root with
    | true => exact h rfl
    | false =>
      have hups := congrArg Place.ups heq
      unfold Place.step at hups
      split_ifs at hups with h1 h2 h3
      · exact hups.symm
      · exact hups.symm
      · contradiction
      · exact (Nat.succ.inj hups).symm
      · exact hups.symm
  · rintro ⟨rfl, rfl⟩
    rfl

theorem place_names_proper (root : Bool) {cs : List Bytes} (h : ∀ c ∈ cs, Whole c) :
    ∀ c ∈ (place root cs).names, Proper c ∧ Whole c := by
  induction cs using List.reverseRecOn with
  | nil =>
    intro c hc
    cases hc
  | append_singleton cs d ih =>
    have hcs := ih (fun c hc => h c (List.mem_append_left _ hc))
    intro c hc
    rw [place_snoc] at hc
    rcases comp_cases d with hd | rfl | hd
    · rw [step_skip hd] at hc
      exact hcs c hc
    · rw [step_up_names] at hc
      exact hcs c (List.dropLast_subset _ hc)
    · rw [step_name hd] at hc
      rcases List.mem_append.mp hc with hc | hc
      · exact hcs c hc
      · rw [List.mem_singleton.mp hc]
        exact ⟨hd, h d (by simp)⟩

/-- From a place without a name, a walk that does not climb above it is the way on. -/
theorem foldl_step_walk {pl : Place} {ns ns' cs : List Bytes} (hpl : pl.names = ns)
    (h : walk ns cs = some ns') :
    (cs.foldl Place.step pl).names = ns' := by
  induction cs generalizing pl ns with
  | nil =>
    cases h
    exact hpl
  | cons c cs ih =>
    rw [List.foldl_cons]
    rcases comp_cases c with hc | rfl | hc
    · rw [walk_skip hc] at h
      rw [step_skip hc]
      exact ih hpl h
    · rw [walk_up] at h
      split at h
      · cases h
      · exact ih (by rw [step_up_names, hpl]) h
    · rw [walk_name hc] at h
      rw [step_name hc]
      exact ih (by rw [hpl]) h

end paths

namespace util.ao_file_control

open paths

/-- An empty component stands where no name is left, and nothing behind it climbs above. -/
def Marked (root : Bool) (cs : List Bytes) : Prop :=
  ∃ cs1 cs2, cs = cs1 ++ [] :: cs2 ∧ (place root cs1).names = [] ∧ (walk [] cs2).isSome

theorem not_marked_nil (root : Bool) : ¬ Marked root [] := by
  rintro ⟨cs1, cs2, h, _⟩
  simp at h

/-- One component more: it makes a mark, or leaves one, or climbs above it. -/
theorem marked_snoc (root : Bool) (cs : List Bytes) (c : Bytes) :
    Marked root (cs ++ [c]) ↔ (c = [] ∧ (place root cs).names = []) ∨
      (Marked root cs ∧ ¬ (c = dotDot ∧ (place root cs).names = [])) := by
  constructor
  · rintro ⟨cs1, cs2, hcs, hnames, hwalk⟩
    rcases List.eq_nil_or_concat' cs2 with rfl | ⟨cs2, d, rfl⟩
    · obtain ⟨rfl, hc⟩ := List.append_inj' hcs rfl
      exact Or.inl ⟨(List.cons.inj hc).1, hnames⟩
    · right
      rw [← List.cons_append, ← List.append_assoc] at hcs
      obtain ⟨rfl, hc⟩ := List.append_inj' hcs rfl
      cases hc
      rw [walk_append] at hwalk
      obtain ⟨ns', hns'⟩ := Option.isSome_iff_exists.mp hwalk
      obtain ⟨ns, hns, hlast⟩ := Option.bind_eq_some_iff.mp hns'
      refine ⟨⟨cs1, cs2, rfl, hnames, by rw [hns]; rfl⟩, ?_⟩
      rintro ⟨rfl, hleft⟩
      have hplace : (place root (cs1 ++ [] :: cs2)).names = ns := by
        rw [place, List.foldl_append, List.foldl_cons]
        exact foldl_step_walk hnames hns
      rw [hleft] at hplace
      rw [walk_up, if_pos hplace.symm] at hlast
      cases hlast
  · rintro (⟨rfl, hnames⟩ | ⟨⟨cs1, cs2, rfl, hnames, hwalk⟩, hup⟩)
    · exact ⟨cs, [], rfl, hnames, rfl⟩
    · refine ⟨cs1, cs2 ++ [c], by simp, hnames, ?_⟩
      obtain ⟨ns, hns⟩ := Option.isSome_iff_exists.mp hwalk
      have hplace : (place root (cs1 ++ [] :: cs2)).names = ns := by
        rw [place, List.foldl_append, List.foldl_cons]
        exact foldl_step_walk hnames hns
      rw [hplace] at hup
      rw [walk_append, hns, Option.bind_some]
      rcases comp_cases c with hc | rfl | hc
      · rw [walk_skip hc]
        rfl
      · rw [walk_up, if_neg (fun h => hup ⟨rfl, h⟩)]
        rfl
      · rw [walk_name hc]
        rfl

open Classical in
/-- The list of the normaliser: the names of the place, behind an empty component at a mark. -/
theorem foldl_pushDir_place (root : Bool) (cs : List Bytes) :
    cs.foldl pushDir [] = (if Marked root cs then [[]] else []) ++ (place root cs).names := by
  induction cs using List.reverseRecOn with
  | nil =>
    rw [if_neg (not_marked_nil root)]
    rfl
  | append_singleton cs c ih =>
    rw [List.foldl_append, List.foldl_cons, List.foldl_nil, ih, place_snoc]
    have hmark := marked_snoc root cs c
    by_cases hm : Marked root cs
    · rcases comp_cases c with (rfl | rfl) | rfl | hc
      · rw [if_pos hm, if_pos (hmark.mpr (Or.inr ⟨hm, by simp [dotDot]⟩)), step_skip (Or.inl rfl)]
        rfl
      · rw [if_pos hm, if_pos (hmark.mpr (Or.inr ⟨hm, by simp [dot, dotDot]⟩)),
          step_skip (Or.inr rfl)]
        rfl
      · rw [if_pos hm, step_up_names]
        by_cases hleft : (place root cs).names = []
        · rw [if_neg (by rw [hmark]; simp [hleft, dotDot]), hleft]
          rfl
        · rw [if_pos (hmark.mpr (Or.inr ⟨hm, by simp [hleft]⟩))]
          unfold pushDir
          rw [if_pos rfl, List.dropLast_append_of_ne_nil hleft]
      · have hup : ¬ (c = dotDot ∧ (place root cs).names = []) := fun h => hc.2.2 h.1
        rw [if_pos hm, if_pos (hmark.mpr (Or.inr ⟨hm, hup⟩)), step_name hc]
        unfold pushDir
        rw [if_neg hc.2.2, if_pos ⟨hc.2.1, Or.inl (List.length_pos_iff.mpr hc.1)⟩,
          List.append_assoc]
    · rw [if_neg hm, List.nil_append]
      rcases comp_cases c with (rfl | rfl) | rfl | hc
      · rw [step_skip (Or.inl rfl)]
        by_cases hleft : (place root cs).names = []
        · rw [if_pos (hmark.mpr (Or.inl ⟨rfl, hleft⟩)), hleft]
          rfl
        · rw [if_neg (by rw [hmark]; simp [hleft, hm])]
          unfold pushDir
          rw [if_neg (by decide), if_neg (by simp [hleft])]
          rfl
      · rw [if_neg (by rw [hmark]; simp [hm, dot]), step_skip (Or.inr rfl)]
        rfl
      · rw [if_neg (by rw [hmark]; simp [hm, dotDot]), step_up_names]
        unfold pushDir
        rw [if_pos rfl]
        rfl
      · rw [if_neg (by rw [hmark]; simp [hm, hc.1]), step_name hc]
        unfold pushDir
        rw [if_neg hc.2.2, if_pos ⟨hc.2.1, Or.inl (List.length_pos_iff.mpr hc.1)⟩]
        rfl

/-- The place that the components before the last separator lead to. -/
def outset (p : Bytes) : Place := place (rooted p) (cut p).1

/-- What the normaliser asks of a path: something is left to write, nothing goes up from the
directory that one is in, and an empty component marks the root just when the path begins there. -/
def Kept (p : Bytes) : Prop :=
  p = [] ∨ (((outset p).names ≠ [] ∨ (cut p).2 ≠ []) ∧ (outset p).ups = 0 ∧
    (Marked (rooted p) (cut p).1 ↔ rooted p = true))

theorem place_comps (p : Bytes) : place (rooted p) (comps p) = (outset p).step (cut p).2 :=
  place_snoc _ _ _

theorem place_names {cs : List Bytes} (h : ∀ c ∈ cs, Proper c) (root : Bool) :
    place root cs = ⟨root, 0, cs⟩ := by
  induction cs using List.reverseRecOn with
  | nil => rfl
  | append_singleton cs c ih =>
    rw [place_snoc, ih (fun d hd => h d (List.mem_append_left _ hd)), step_name (h c (by simp))]

theorem place_lastPart (root : Bool) (cs : List Bytes) (last : Bytes) :
    place root (cs ++ lastPart last) = (place root cs).step last := by
  unfold lastPart
  split
  · rename_i hnil
    rw [hnil, step_skip (Or.inl rfl), List.append_nil]
  · exact place_snoc _ _ _

theorem denotes_of_comps {p d : Bytes} {ds : List Bytes} (h : comps p = d :: ds)
    (hmore : d ≠ [] ∨ ds ≠ []) :
    denotes p = some (place (decide (d = [])) (d :: ds)) := by
  have hne : p ≠ [] := by
    rintro rfl
    rw [show comps [] = [[]] from rfl] at h
    cases h
    simp at hmore
  have hroot : rooted p = decide (d = []) := by
    rw [Bool.eq_iff_iff, rooted_iff h, decide_eq_true_iff]
    exact and_iff_left_of_imp (fun hd => hmore.resolve_left (not_not.mpr hd))
  rw [denotes, if_neg hne, h, hroot]

/-- What is written from a mark, some names and a last component denotes the step to it. -/
theorem denotes_joinDirs {m : Bool} {ns : List Bytes} {last : Bytes}
    (hns : ∀ c ∈ ns, Proper c ∧ Whole c) (hlast : Whole last) (hleft : ns ≠ [] ∨ last ≠ []) :
    denotes (joinDirs [47] ((if m then [[]] else []) ++ ns ++ lastPart last)) =
      some ((Place.mk m 0 ns).step last) := by
  have hplace : ∀ root, place root (ns ++ lastPart last) = (Place.mk root 0 ns).step last := by
    intro root
    rw [place_lastPart, place_names (fun c hc => (hns c hc).1)]
  have hwhole : ∀ c ∈ ns ++ lastPart last, Whole c := by
    intro c hc
    rcases List.mem_append.mp hc with hc | hc
    · exact (hns c hc).2
    · unfold lastPart at hc
      split at hc
      · cases hc
      · rw [List.mem_singleton.mp hc]
        exact hlast
  have hsome : ns ++ lastPart last ≠ [] := by
    intro hnil
    obtain ⟨h1, h2⟩ := List.append_eq_nil_iff.mp hnil
    rcases hleft with h | h
    · exact h h1
    · rw [lastPart, if_neg h] at h2
      cases h2
  cases m with
  | true =>
    have hcomps : comps (joinDirs [47] ([] :: (ns ++ lastPart last))) =
        [] :: (ns ++ lastPart last) := by
      apply comps_joinDirs rfl
      intro c hc
      rcases List.mem_cons.mp hc with rfl | hc
      · intro b hb
        cases hb
      · exact hwhole c hc
    rw [List.append_assoc]
    refine (denotes_of_comps hcomps (Or.inr hsome)).trans (congrArg some ?_)
    rw [← hplace true]
    exact congrArg (fun pl => (ns ++ lastPart last).foldl Place.step pl) (step_skip (Or.inl rfl) _)
  | false =>
    obtain ⟨d, ds, hd⟩ := List.exists_cons_of_ne_nil hsome
    have hfirst : d ≠ [] := by
      cases ns with
      | nil =>
        rcases hleft with h | h
        · exact absurd rfl h
        · rw [List.nil_append, lastPart, if_neg h] at hd
          cases hd
          exact h
      | cons c cs =>
        cases hd
        exact (hns d List.mem_cons_self).1.1
    have hlist : (if false = true then [[]] else []) ++ ns ++ lastPart last = d :: ds := hd
    have hcomps : comps (joinDirs [47] (d :: ds)) = d :: ds :=
      comps_joinDirs rfl (by rw [← hd]; exact hwhole)
    rw [hlist, denotes_of_comps hcomps (Or.inl hfirst), ← hd, hplace, decide_eq_false hfirst]

theorem whole_cut (p : Bytes) : (∀ c ∈ (cut p).1, Whole c) ∧ Whole (cut p).2 :=
  ⟨fun c hc => whole_comps p c (List.mem_append_left _ hc),
    whole_comps p _ (List.mem_append_right _ (by simp))⟩

open Classical in
/-- The list of the normaliser: the mark, the names and the last component, unless it is empty. -/
theorem stdDirs_eq (p : Bytes) : stdDirs p =
    (if decide (Marked (rooted p) (cut p).1) then [[]] else []) ++ (outset p).names ++
      lastPart (cut p).2 := by
  have hlist := foldl_pushDir_place (rooted p) (cut p).1
  unfold stdDirs outset lastPart
  dsimp only
  rw [hlist]
  by_cases hm : Marked (rooted p) (cut p).1
  · by_cases hlast : (cut p).2 = []
    · simp [hm, hlast]
    · simp [hm, hlast]
  · by_cases hlast : (cut p).2 = []
    · simp [hm, hlast]
    · simp [hm, hlast]

open Classical in
/-- A normalised path is written from the mark, the names and the last component. -/
theorem toStandardlPath_eq (p : Bytes) : toStandardlPath p [47] =
    joinDirs [47] ((if decide (Marked (rooted p) (cut p).1) then [[]] else []) ++
      (outset p).names ++ lastPart (cut p).2) := by
  unfold toStandardlPath
  rw [stdDirs_eq]

/-- A path and what the normaliser makes of it denote the same just when the path is kept. -/
theorem a_path_keeps_its_meaning_just_when_it_is_kept (p : Bytes) :
    denotes (toStandardlPath p [47]) = denotes p ↔ Kept p := by
  classical
  obtain ⟨hbefore, hlast⟩ := whole_cut p
  by_cases hp : p = []
  · subst hp
    exact iff_of_true rfl (Or.inl rfl)
  have hdenotes : denotes p = some ((outset p).step (cut p).2) := by
    rw [denotes, if_neg hp, place_comps]
  unfold Kept
  rw [or_iff_right hp]
  by_cases hleft : (outset p).names ≠ [] ∨ (cut p).2 ≠ []
  · have hns : ∀ c ∈ (outset p).names, Proper c ∧ Whole c := place_names_proper _ hbefore
    have hups : rooted p = true → (outset p).ups = 0 := by
      intro hroot
      rw [outset, hroot]
      exact place_ups_of_root _
    have hout : outset p = ⟨rooted p, (outset p).ups, (outset p).names⟩ := by
      rw [Place.mk.injEq]
      exact ⟨place_root _ _, rfl, rfl⟩
    rw [and_iff_right hleft, toStandardlPath_eq, denotes_joinDirs hns hlast hleft, hdenotes,
      Option.some_inj, hout, step_inj_iff hups, and_comm, Bool.eq_iff_iff, decide_eq_true_iff]
  · have hnone : denotes (toStandardlPath p [47]) = none := by
      rw [not_or, not_not, not_not] at hleft
      rw [toStandardlPath_eq, hleft.1, hleft.2]
      by_cases hm : Marked (rooted p) (cut p).1
      · simp [hm, lastPart, joinDirs, denotes]
      · simp [hm, lastPart, joinDirs, denotes]
    rw [hnone, hdenotes]
    exact iff_of_false (by simp) (fun h => hleft h.1)

/-- A ".." in front of a relative path is lost. -/
theorem a_path_out_of_the_directory_is_lost :
    denotes (toStandardlPath [46, 46, 47, 97] [47]) ≠ denotes [46, 46, 47, 97] := by
  decide

end util.ao_file_control
