-- The paths of `CAoFileControl`: the normaliser, and the split of a path into the directory
-- and the name of a file. The lemmas say that a path which begins at the root or at a
-- name, and never climbs above it, leads to the same place when it is normalised.
import Aods.Paths

open machine paths

namespace util.ao_file_control

/-- What the loop of `ToStandardlPath` does with a component that a separator closes. -/
def pushDir (lst_dirs : List Bytes) (str_dir : Bytes) : List Bytes :=
  if str_dir = dotDot then lst_dirs.dropLast
  else if str_dir ≠ dot ∧ (str_dir.length > 0 ∨ lst_dirs.length = 0) then lst_dirs ++ [str_dir]
  else lst_dirs

/-- The list of `ToStandardlPath`. What lies behind the last separator is taken as it is. -/
def stdDirs (src : Bytes) : List Bytes :=
  let lst_dirs := (cut src).1.foldl pushDir []
  if (cut src).2 ≠ [] then lst_dirs ++ [(cut src).2] else lst_dirs

def joinDirs (split : Bytes) : List Bytes → Bytes
  | [] => []
  | d :: ds => ds.foldl (fun str_dest dir => str_dest ++ (split ++ dir)) d

def toStandardlPath (src split : Bytes) : Bytes := joinDirs split (stdDirs src)

/-- What lies before the last separator. -/
def dirPart : Bytes → Option Bytes
  | [] => none
  | b :: p =>
    match dirPart p with
    | some dir => some (b :: dir)
    | none => if isSep b then some [] else none

/-- The path name that `Split` gives. -/
def pathName (p : Bytes) : Bytes := (dirPart p).getD []

/-! ## The normaliser -/

/-- Behind some first component the list of the normaliser is the walk. -/
theorem foldl_pushDir {c : Bytes} {names names' cs : List Bytes} (h : walk names cs = some names') :
    cs.foldl pushDir (c :: names) = c :: names' := by
  induction cs generalizing names with
  | nil =>
    cases h
    rfl
  | cons d cs ih =>
    rw [List.foldl_cons]
    rcases comp_cases d with hd | rfl | hd
    · rw [walk_skip hd] at h
      have hpush : pushDir (c :: names) d = c :: names := by
        rcases hd with rfl | rfl
        · rfl
        · rfl
      rw [hpush]
      exact ih h
    · rw [walk_up] at h
      split at h
      · cases h
      · rename_i hne
        have hpush : pushDir (c :: names) dotDot = c :: names.dropLast := by
          unfold pushDir
          rw [if_pos rfl, List.dropLast_cons_of_ne_nil hne]
        rw [hpush]
        exact ih h
    · rw [walk_name hd] at h
      have hpush : pushDir (c :: names) d = c :: (names ++ [d]) := by
        obtain ⟨h0, h1, h2⟩ := hd
        unfold pushDir
        rw [if_neg h2, if_pos ⟨h1, Or.inl (List.length_pos_iff.mpr h0)⟩]
        rfl
      rw [hpush]
      exact ih h

theorem foldl_pushDir_dots {dots : List Bytes} (h : ∀ d ∈ dots, d = dot) (cs : List Bytes) :
    (dots ++ cs).foldl pushDir [] = cs.foldl pushDir [] := by
  induction dots with
  | nil => rfl
  | cons d dots ih =>
    rw [List.cons_append, List.foldl_cons, h d List.mem_cons_self]
    exact ih (fun d' hd' => h d' (List.mem_cons_of_mem d hd'))

/-- The last component, unless it is empty. -/
def lastPart (last : Bytes) : List Bytes := if last = [] then [] else [last]

/-- The normaliser takes the walk over all components but the last. -/
theorem stdDirs_anchored {p c : Bytes} {rest names : List Bytes} (h : Anchored p c rest names)
    (hrest : rest ≠ []) :
    ∃ before, walk [] rest.dropLast = some before ∧ walk before [rest.getLast hrest] = some names ∧
      stdDirs p = c :: (before ++ lastPart (rest.getLast hrest)) := by
  obtain ⟨⟨dots, hcomps, hdots, hroot⟩, ⟨h1, h2⟩, hwalk, hmore⟩ := h
  obtain ⟨before, hbefore, hlast⟩ := walk_dropLast hwalk hrest
  refine ⟨before, hbefore, hlast, ?_⟩
  have hcut : (cut p).1 ++ [(cut p).2] = (dots ++ c :: rest.dropLast) ++ [rest.getLast hrest] := by
    have hsplit := List.dropLast_concat_getLast hrest
    rw [List.append_assoc, List.cons_append, hsplit]
    exact hcomps
  obtain ⟨hclosed, hend⟩ := List.append_inj' hcut rfl
  have hfirst : pushDir [] c = [c] := by
    unfold pushDir
    rw [if_neg h2, if_pos ⟨h1, Or.inr rfl⟩]
    rfl
  have hlist : (cut p).1.foldl pushDir [] = c :: before := by
    rw [hclosed, foldl_pushDir_dots hdots, List.foldl_cons, hfirst]
    exact foldl_pushDir hbefore
  rw [List.cons.injEq] at hend
  unfold stdDirs lastPart
  dsimp only
  rw [hlist, hend.1]
  by_cases hnil : rest.getLast hrest = []
  · rw [if_neg (by simp [hnil]), if_pos hnil, List.append_nil]
  · rw [if_pos hnil, if_neg hnil]
    rfl

theorem comps_joinDirs {b : UInt8} (hb : isSep b = true) {d : Bytes} {ds : List Bytes}
    (h : ∀ c ∈ d :: ds, Whole c) :
    comps (joinDirs [b] (d :: ds)) = d :: ds := by
  have hfold : ∀ (ds : List Bytes) (s : Bytes), (∀ c ∈ ds, Whole c) →
      comps (ds.foldl (fun str_dest dir => str_dest ++ ([b] ++ dir)) s) = comps s ++ ds := by
    intro ds
    induction ds with
    | nil =>
      intro s _
      exact (List.append_nil _).symm
    | cons d ds ih =>
      intro s hds
      rw [List.foldl_cons, ih _ (fun c hc => hds c (List.mem_cons_of_mem d hc)),
        List.singleton_append, comps_append hb, comps_whole (hds d List.mem_cons_self),
        List.append_assoc]
      rfl
  unfold joinDirs
  rw [hfold ds d (fun c hc => h c (List.mem_cons_of_mem d hc)),
    comps_whole (h d List.mem_cons_self)]
  rfl

/-- A normalised path leads where the path led. Its last component is that of the path. -/
theorem anchored_toStandardlPath {p c : Bytes} {rest names : List Bytes}
    (h : Anchored p c rest names) (hrest : rest ≠ [])
    (hroot : c = [] → names ≠ [] ∨ rest.getLast hrest ≠ []) :
    ∃ before, walk [] rest.dropLast = some before ∧ (∀ d ∈ before, Proper d) ∧
      Anchored (toStandardlPath p [47]) c (before ++ lastPart (rest.getLast hrest)) names := by
  obtain ⟨before, hbefore, hlast, hstd⟩ := stdDirs_anchored h hrest
  have hwhole : ∀ d ∈ c :: rest, Whole d := by
    obtain ⟨dots, hcomps, _⟩ := h.comps_eq
    intro d hd
    apply whole_comps p
    rw [hcomps]
    exact List.mem_append_right dots hd
  have hproper : ∀ d ∈ before, Proper d ∧ Whole d :=
    walk_proper hbefore (by simp)
      (fun d hd => hwhole d (List.mem_cons_of_mem c (List.dropLast_subset rest hd)))
  refine ⟨before, hbefore, fun d hd => (hproper d hd).1, ?_⟩
  have hlastWhole : ∀ d ∈ lastPart (rest.getLast hrest), Whole d := by
    intro d hd
    unfold lastPart at hd
    split at hd
    · cases hd
    · rw [List.mem_singleton.mp hd]
      exact hwhole _ (List.mem_cons_of_mem c (List.getLast_mem hrest))
  have hcomps : comps (toStandardlPath p [47]) =
      c :: (before ++ lastPart (rest.getLast hrest)) := by
    unfold toStandardlPath
    rw [hstd]
    apply comps_joinDirs rfl
    intro d hd
    rcases List.mem_cons.mp hd with rfl | hd
    · exact hwhole _ List.mem_cons_self
    rcases List.mem_append.mp hd with hd | hd
    · exact (hproper d hd).2
    · exact hlastWhole d hd
  have hwalk : walk [] (before ++ lastPart (rest.getLast hrest)) = some names := by
    rw [walk_append, walk_names (fun d hd => (hproper d hd).1), List.nil_append, Option.bind_some]
    unfold lastPart
    split
    · rename_i hnil
      rw [hnil, walk_skip (Or.inl rfl)] at hlast
      exact hlast
    · exact hlast
  refine ⟨⟨[], by rw [hcomps]; rfl, by simp, fun _ => rfl⟩, h.start, hwalk, fun hc hnil => ?_⟩
  rw [hnil] at hwalk
  cases hwalk
  rcases hroot hc with hnames | hne
  · exact hnames rfl
  · unfold lastPart at hnil
    rw [if_neg hne] at hnil
    simp at hnil

/-! ## The directory of a file -/

theorem comps_dirPart (p : Bytes) :
    (∀ dir, dirPart p = some dir → ∃ last, comps p = comps dir ++ [last]) ∧
      (dirPart p = none → comps p = [p]) := by
  induction p with
  | nil => exact ⟨by simp [dirPart], fun _ => rfl⟩
  | cons b p ih =>
    obtain ⟨hsome, hnone⟩ := ih
    unfold dirPart
    cases hp : dirPart p with
    | some dir =>
      obtain ⟨last, hcomps⟩ := hsome dir hp
      refine ⟨fun dir' hdir => ⟨last, ?_⟩, by simp⟩
      cases hdir
      cases hb : isSep b with
      | true => rw [comps_sep hb, comps_sep hb, hcomps, List.cons_append]
      | false =>
        obtain ⟨d, ds, hd, hbd⟩ := comps_cons hb dir
        obtain ⟨e, es, he, hbe⟩ := comps_cons hb p
        rw [hcomps, hd, List.cons_append] at he
        cases he
        rw [hbe, hbd, List.cons_append]
    | none =>
      have hcomps := hnone hp
      cases hb : isSep b with
      | true =>
        refine ⟨fun dir hdir => ⟨p, ?_⟩, by simp⟩
        cases hdir
        rw [comps_sep hb, hcomps]
        rfl
      | false =>
        refine ⟨by simp, fun _ => ?_⟩
        obtain ⟨e, es, he, hbe⟩ := comps_cons hb p
        rw [hcomps] at he
        cases he
        exact hbe

theorem comps_pathName {p : Bytes} (h : (comps p).dropLast ≠ []) :
    comps (pathName p) = (comps p).dropLast := by
  obtain ⟨hsome, hnone⟩ := comps_dirPart p
  unfold pathName
  cases hp : dirPart p with
  | none =>
    rw [hnone hp] at h
    exact absurd rfl h
  | some dir =>
    obtain ⟨last, hcomps⟩ := hsome dir hp
    rw [hcomps, List.dropLast_concat]
    rfl

theorem anchored_pathName {p c : Bytes} {rest names before : List Bytes}
    (h : Anchored p c rest names) (hrest : rest ≠ [])
    (hbefore : walk [] rest.dropLast = some before) (hroot : c = [] → rest.dropLast ≠ []) :
    Anchored (pathName p) c rest.dropLast before := by
  obtain ⟨⟨dots, hcomps, hdots, hfirst⟩, hstart, _, _⟩ := h
  have hdrop : (comps p).dropLast = dots ++ c :: rest.dropLast := by
    rw [hcomps, List.dropLast_append_of_ne_nil (List.cons_ne_nil c rest),
      List.dropLast_cons_of_ne_nil hrest]
  refine ⟨⟨dots, ?_, hdots, hfirst⟩, hstart, hbefore, hroot⟩
  rw [comps_pathName, hdrop]
  rw [hdrop]
  simp

/-! ## Lengths -/

/-- The bytes of some components, each with a separator behind it. -/
def weight : List Bytes → Nat
  | [] => 0
  | d :: ds => d.length + 1 + weight ds

@[simp] theorem weight_nil : weight [] = 0 := rfl

@[simp] theorem weight_cons (d : Bytes) (ds : List Bytes) :
    weight (d :: ds) = d.length + 1 + weight ds := rfl

@[simp] theorem weight_append (ds es : List Bytes) : weight (ds ++ es) = weight ds + weight es := by
  induction ds with
  | nil => simp
  | cons d ds ih =>
    rw [List.cons_append, weight_cons, weight_cons, ih]
    omega

theorem weight_dropLast_le (ds : List Bytes) : weight ds.dropLast ≤ weight ds := by
  by_cases hds : ds = []
  · rw [hds]
    exact Nat.le_refl _
  · have hsplit := weight_append ds.dropLast [ds.getLast hds]
    rw [List.dropLast_concat_getLast hds] at hsplit
    omega

theorem weight_foldl_pushDir_le (cs ds : List Bytes) :
    weight (cs.foldl pushDir ds) ≤ weight ds + weight cs := by
  induction cs generalizing ds with
  | nil => exact Nat.le_refl _
  | cons c cs ih =>
    have hpush : weight (pushDir ds c) ≤ weight ds + (c.length + 1) := by
      have hdrop := weight_dropLast_le ds
      unfold pushDir
      split
      · omega
      · split
        · simp
        · omega
    have hrest := ih (pushDir ds c)
    rw [List.foldl_cons, weight_cons]
    omega

theorem weight_cut (p : Bytes) : weight (cut p).1 + (cut p).2.length = p.length := by
  induction p with
  | nil => rfl
  | cons b p ih =>
    unfold cut
    split
    · simp
      omega
    · cases hp : (cut p).1 with
      | nil =>
        rw [hp] at ih
        simpa using ih
      | cons d ds =>
        rw [hp] at ih
        simp at ih ⊢
        omega

theorem length_joinDirs_le (ds : List Bytes) : (joinDirs [47] ds).length ≤ weight ds - 1 := by
  cases ds with
  | nil => exact Nat.le_refl _
  | cons d ds =>
    have hfold : ∀ (ds : List Bytes) (s : Bytes),
        (ds.foldl (fun str_dest dir => str_dest ++ ([47] ++ dir)) s).length =
            s.length + weight ds := by
      intro ds
      induction ds with
      | nil => exact fun _ => rfl
      | cons d ds ih =>
        intro s
        rw [List.foldl_cons, ih, weight_cons]
        simp only [List.length_append, List.length_singleton]
        omega
    unfold joinDirs
    rw [hfold, weight_cons]
    omega

theorem length_toStandardlPath_le (p : Bytes) : (toStandardlPath p [47]).length ≤ p.length := by
  have hjoin := length_joinDirs_le (stdDirs p)
  have hclosed := weight_foldl_pushDir_le (cut p).1 []
  have hcut := weight_cut p
  have hdirs : weight (stdDirs p) ≤ p.length + 1 := by
    unfold stdDirs
    dsimp only
    rw [weight_nil] at hclosed
    split
    · rw [weight_append, weight_cons, weight_nil]
      omega
    · omega
  unfold toStandardlPath
  omega

end util.ao_file_control
