-- `CreateDirs` of `CAoFileControl`. Its loop does not look at the byte behind a cut, so a
-- component may have a separator in front, and such a ".." is not taken back but made. The
-- lemmas say that the directories that it makes for a path below a directory lie below it, or
-- on the way to it.
import Aods.FileControl

open machine paths

namespace util.ao_file_control

/-! ## The source -/

/-- The names that the loop of `CreateDirs` cuts off, and what is left. Right behind a cut the
next byte is not looked at. -/
def cutDirs : Bool → Bytes → List Bytes × Bytes
  | _, [] => ([], [])
  | fresh, b :: p =>
    if isSep b ∧ ¬ fresh then ([] :: (cutDirs true p).1, (cutDirs true p).2)
    else
      match (cutDirs false p).1 with
      | [] => ([], b :: (cutDirs false p).2)
      | d :: ds => ((b :: d) :: ds, (cutDirs false p).2)

/-- What the loop does with a name that it cuts off. -/
def pushName (lst_dir : List Bytes) (str_dir_name : Bytes) : List Bytes :=
  if str_dir_name = dotDot then lst_dir.dropLast
  else if str_dir_name ≠ dot then lst_dir ++ [str_dir_name]
  else lst_dir

/-- `lstDir` behind the loop. -/
def lstDir (p : Bytes) : List Bytes :=
  let lst_dir := (cutDirs false p).1.foldl pushName []
  if (cutDirs false p).2 ≠ [] then lst_dir ++ [(cutDirs false p).2] else lst_dir

/-- The paths that `CreateDir` gets, from a string that has some of them already. -/
def madeDirs (str_dir : Bytes) : List Bytes → List Bytes
  | [] => []
  | d :: ds => (str_dir ++ d ++ [47]) :: madeDirs (str_dir ++ d ++ [47]) ds

def createDirs (p : Bytes) : List Bytes := madeDirs [] (lstDir p)

/-! ## The names of the loop -/

/-- All names of the loop, with what is left as the last. -/
def dirNames (fresh : Bool) (p : Bytes) : List Bytes := (cutDirs fresh p).1 ++ [(cutDirs fresh p).2]

theorem dirNames_nil (fresh : Bool) : dirNames fresh [] = [[]] := by
  cases fresh with
  | true => rfl
  | false => rfl

theorem dirNames_cut {b : UInt8} (h : isSep b = true) (p : Bytes) :
    dirNames false (b :: p) = [] :: dirNames true p := by
  simp [dirNames, cutDirs, h]

theorem dirNames_cons (fresh : Bool) {b : UInt8} (h : fresh = true ∨ isSep b = false) (p : Bytes) :
    ∃ d ds, dirNames false p = d :: ds ∧ dirNames fresh (b :: p) = (b :: d) :: ds := by
  have hcut : ¬ (isSep b = true ∧ ¬ fresh = true) := by
    rintro ⟨hb, hfresh⟩
    rcases h with h | h
    · exact hfresh h
    · rw [h] at hb
      cases hb
  simp only [dirNames, cutDirs, if_neg hcut]
  cases hp : (cutDirs false p).1 with
  | nil => exact ⟨(cutDirs false p).2, [], rfl, rfl⟩
  | cons d ds => exact ⟨d, ds ++ [(cutDirs false p).2], rfl, rfl⟩

/-- A name without separators, or one with a byte of any kind in front. -/
def Short (d : Bytes) : Prop := Whole d ∨ ∃ b x, d = b :: x ∧ Whole x

theorem short_dirNames (p : Bytes) :
    (∃ h t, dirNames false p = h :: t ∧ Whole h ∧ ∀ d ∈ t, Short d) ∧
      ∀ d ∈ dirNames true p, Short d := by
  induction p with
  | nil =>
    rw [dirNames_nil, dirNames_nil]
    have hnil : Whole [] := by
      intro b hb
      cases hb
    refine ⟨⟨[], [], rfl, hnil, by simp⟩, fun d hd => ?_⟩
    rw [List.mem_singleton.mp hd]
    exact Or.inl hnil
  | cons b p ih =>
    obtain ⟨⟨h, t, hnames, hwhole, hshort⟩, hfresh⟩ := ih
    constructor
    · cases hb : isSep b with
      | true =>
        refine ⟨[], _, dirNames_cut hb p, ?_, hfresh⟩
        intro b hb
        cases hb
      | false =>
        obtain ⟨d, ds, hd, hcons⟩ := dirNames_cons false (Or.inr hb) p
        rw [hnames] at hd
        cases hd
        refine ⟨b :: h, t, hcons, ?_, hshort⟩
        intro b' hb'
        rcases List.mem_cons.mp hb' with rfl | hb'
        · exact hb
        · exact hwhole b' hb'
    · obtain ⟨d, ds, hd, hcons⟩ := dirNames_cons true (Or.inl rfl) p
      rw [hnames] at hd
      cases hd
      rw [hcons]
      intro d hd
      rcases List.mem_cons.mp hd with rfl | hd
      · exact Or.inr ⟨b, h, rfl, hwhole⟩
      · exact hshort d hd

theorem flatMap_dirNames (p : Bytes) (fresh : Bool) :
    (dirNames fresh p).flatMap comps = comps p := by
  induction p generalizing fresh with
  | nil =>
    rw [dirNames_nil]
    rfl
  | cons b p ih =>
    by_cases hcut : isSep b = true ∧ fresh = false
    · obtain ⟨hb, rfl⟩ := hcut
      rw [dirNames_cut hb, List.flatMap_cons, ih, comps_sep hb]
      rfl
    · have hcons : fresh = true ∨ isSep b = false := by
        cases fresh with
        | true => exact Or.inl rfl
        | false =>
          right
          simpa using hcut
      obtain ⟨d, ds, hd, hnames⟩ := dirNames_cons fresh hcons p
      have hp := ih false
      rw [hd, List.flatMap_cons] at hp
      rw [hnames, List.flatMap_cons]
      cases hb : isSep b with
      | true => rw [comps_sep hb, comps_sep hb, ← hp, List.cons_append]
      | false =>
        obtain ⟨e, es, he, hbd⟩ := comps_cons hb d
        obtain ⟨e', es', he', hbp⟩ := comps_cons hb p
        rw [← hp, he, List.cons_append] at he'
        cases he'
        rw [hbd, hbp, List.cons_append]

theorem walk_one {c : Bytes} {place there : List Bytes} (h : walk place [c] = some there) :
    there.length ≤ place.length + 1 := by
  rcases comp_cases c with hc | rfl | hc
  · rw [walk_skip hc] at h
    cases h
    omega
  · rw [walk_up] at h
    split at h
    · cases h
    · cases h
      rw [List.length_dropLast]
      omega
  · rw [walk_name hc] at h
    cases h
    rw [List.length_append]
    rfl

/-- A name of the loop leads no more than one place down. -/
theorem Short.walk {d : Bytes} (h : Short d) {place there : List Bytes}
    (hwalk : walk place (comps d) = some there) :
    there.length ≤ place.length + 1 := by
  rcases h with hd | ⟨b, x, rfl, hx⟩
  · rw [comps_whole hd] at hwalk
    exact walk_one hwalk
  · cases hb : isSep b with
    | true =>
      rw [comps_sep hb, comps_whole hx, walk_skip (Or.inl rfl)] at hwalk
      exact walk_one hwalk
    | false =>
      have hd : Whole (b :: x) := by
        intro b' hb'
        rcases List.mem_cons.mp hb' with rfl | hb'
        · exact hb
        · exact hx b' hb'
      rw [comps_whole hd] at hwalk
      exact walk_one hwalk

/-! ## The list of the loop -/

variable {base place : List Bytes} {lst : List Bytes}

/-- The list behind its first name: each of its beginnings leads to a place on the way to some
names or below them, and all of it follows the place that the path itself has come to. -/
structure Stacked (base lst place : List Bytes) : Prop where
  beginnings : ∀ k, ∃ there, walk [] ((lst.take k).flatMap comps) = some there ∧
    (there <+: base ∨ base <+: there)
  follows : ∃ there, walk [] (lst.flatMap comps) = some there ∧ Follows base there place
  short : ∀ d ∈ lst, Short d

theorem Stacked.nil (base : List Bytes) : Stacked base [] [] where
  beginnings := fun k => ⟨[], by rw [List.take_nil]; rfl, Or.inl List.nil_prefix⟩
  follows := ⟨[], rfl, Nat.le_refl _, Or.inr ⟨rfl, List.nil_prefix⟩⟩
  short := by simp

theorem Stacked.push (h : Stacked base lst place) {d : Bytes} (hd : Short d)
    (halong : Along base place (comps d)) :
    ∃ place', walk place (comps d) = some place' ∧ Stacked base (lst ++ [d]) place' := by
  obtain ⟨there, hthere, hfollows⟩ := h.follows
  obtain ⟨place', there', hplace, hthere', hfollows'⟩ := hfollows.walk halong
  have hall : walk [] ((lst ++ [d]).flatMap comps) = some there' := by
    rw [List.flatMap_append, walk_append, hthere, List.flatMap_singleton]
    exact hthere'
  refine ⟨place', hplace, fun k => ?_, ⟨there', hall, hfollows'⟩, fun e he => ?_⟩
  · by_cases hk : k ≤ lst.length
    · rw [List.take_append_of_le_length hk]
      exact h.beginnings k
    · rw [List.take_of_length_le (by rw [List.length_append, List.length_singleton]; omega)]
      exact ⟨there', hall, hfollows'.near⟩
  · rcases List.mem_append.mp he with he | he
    · exact h.short e he
    · rw [List.mem_singleton.mp he]
      exact hd

/-- Where the path goes up, the list loses a name: it has one, and its rest still follows. -/
theorem Stacked.pop (h : Stacked base lst place) (hne : place ≠ [])
    (hbase : base <+: place.dropLast) :
    lst ≠ [] ∧ Stacked base lst.dropLast place.dropLast := by
  obtain ⟨there, hthere, hfollows⟩ := h.follows
  have hpos := List.length_pos_iff.mpr hne
  have hlst : lst ≠ [] := by
    rintro rfl
    cases hthere
    exact absurd hfollows.1 (by simpa using hne)
  have htake : ∀ k, lst.dropLast.take k = lst.take (min k (lst.length - 1)) := by
    intro k
    rw [List.dropLast_eq_take, List.take_take]
  obtain ⟨before, hbefore, hnear⟩ := h.beginnings (lst.length - 1)
  rw [← List.dropLast_eq_take] at hbefore
  refine ⟨hlst, fun k => ?_, ⟨before, hbefore, ?_⟩,
    fun d hd => h.short d (List.dropLast_subset lst hd)⟩
  · rw [htake]
    exact h.beginnings _
  · -- the last name leads one place down at most
    rw [← List.dropLast_concat_getLast hlst, List.flatMap_append, walk_append, hbefore,
      Option.bind_some, List.flatMap_singleton] at hthere
    have hdown := (h.short _ (List.getLast_mem hlst)).walk hthere
    have hlen := hfollows.1
    have hle := hbase.length_le
    rw [List.length_dropLast] at hle
    refine ⟨by rw [List.length_dropLast]; omega, Or.inl ?_⟩
    rcases hnear with hon | hbelow
    · have hle' := hon.length_le
      have hsame := hon.eq_of_length (by omega)
      subst hsame
      exact List.prefix_refl _
    · exact hbelow

theorem pushName_up (c : Bytes) (h : lst ≠ []) :
    pushName (c :: lst) dotDot = c :: lst.dropLast := by
  unfold pushName
  rw [if_pos rfl, List.dropLast_cons_of_ne_nil h]

theorem pushName_dot (lst : List Bytes) : pushName lst dot = lst := by
  unfold pushName
  rw [if_neg (by decide), if_neg (by simp)]

theorem pushName_other {d : Bytes} (h1 : d ≠ dot) (h2 : d ≠ dotDot) (lst : List Bytes) :
    pushName lst d = lst ++ [d] := by
  unfold pushName
  rw [if_neg h2, if_pos h1]

/-- The loop keeps its list stacked, behind a first name. -/
theorem Stacked.foldl {ds : List Bytes} {more : List Bytes} (h : Stacked base lst place)
    (hshort : ∀ d ∈ ds, Short d) (halong : Along base place (ds.flatMap comps ++ more))
    (c : Bytes) :
    ∃ lst' place', ds.foldl pushName (c :: lst) = c :: lst' ∧ Stacked base lst' place' ∧
      Along base place' more := by
  induction ds generalizing lst place with
  | nil => exact ⟨lst, place, rfl, h, halong⟩
  | cons d ds ih =>
    rw [List.flatMap_cons, List.append_assoc] at halong
    obtain ⟨hd, hrest⟩ := along_append halong
    have hshort' := fun e he => hshort e (List.mem_cons_of_mem d he)
    rw [List.foldl_cons]
    by_cases hup : d = dotDot
    · subst hup
      have hcomps : comps dotDot = [dotDot] := rfl
      rw [hcomps, along_up] at hd
      obtain ⟨hne, hbase, _⟩ := hd
      obtain ⟨hlst, hpop⟩ := h.pop hne hbase
      rw [pushName_up c hlst]
      apply ih hpop hshort'
      apply hrest
      rw [hcomps, walk_up, if_neg hne]
      rfl
    · by_cases hdot : d = dot
      · subst hdot
        rw [pushName_dot]
        exact ih h hshort' (hrest place (walk_skip (Or.inr rfl) place []))
      · obtain ⟨place', hwalk, hpush⟩ := h.push (hshort d List.mem_cons_self) hd
        rw [pushName_other hdot hup, List.cons_append]
        exact ih hpush hshort' (hrest place' hwalk)

/-! ## The beginning of the loop -/

theorem cutDirs_single {p d : Bytes} (h : comps p = [d]) : p = d ∧ cutDirs false p = ([], p) := by
  induction p generalizing d with
  | nil =>
    cases h
    exact ⟨rfl, rfl⟩
  | cons b p ih =>
    cases hb : isSep b with
    | true =>
      rw [comps_sep hb, List.cons.injEq] at h
      exact absurd h.2 (comps_ne_nil p)
    | false =>
      obtain ⟨e, es, hp, hbp⟩ := comps_cons hb p
      rw [hbp] at h
      cases h
      obtain ⟨rfl, hcut⟩ := ih hp
      exact ⟨rfl, by simp [cutDirs, hb, hcut]⟩

/-- The loop cuts off the first component, whatever it is. -/
theorem cutDirs_first {p d : Bytes} {ds : List Bytes} (h : comps p = d :: ds) (hds : ds ≠ []) :
    ∃ p', comps p' = ds ∧ cutDirs false p = (d :: (cutDirs true p').1, (cutDirs true p').2) := by
  induction p generalizing d with
  | nil =>
    cases h
    exact absurd rfl hds
  | cons b p ih =>
    cases hb : isSep b with
    | true =>
      rw [comps_sep hb] at h
      cases h
      exact ⟨p, rfl, by simp [cutDirs, hb]⟩
    | false =>
      obtain ⟨e, es, hp, hbp⟩ := comps_cons hb p
      rw [hbp] at h
      cases h
      obtain ⟨p', hp', hcut⟩ := ih hp
      exact ⟨p', hp', by simp [cutDirs, hb, hcut]⟩

theorem cutDirs_fresh {p d : Bytes} {ds : List Bytes} (h : comps p = d :: ds) (hd : d ≠ []) :
    cutDirs true p = cutDirs false p := by
  cases p with
  | nil =>
    cases h
    exact absurd rfl hd
  | cons b p =>
    cases hb : isSep b with
    | true =>
      rw [comps_sep hb] at h
      cases h
      exact absurd rfl hd
    | false => simp [cutDirs, hb]

/-- What is left behind the loop goes to the list as it is. -/
def closeWith (lst_dir : List Bytes) (last : Bytes) : List Bytes :=
  if last ≠ [] then lst_dir ++ [last] else lst_dir

theorem lstDir_eq (p : Bytes) :
    lstDir p = closeWith ((cutDirs false p).1.foldl pushName []) (cutDirs false p).2 := rfl

theorem lstDir_anchored {p c : Bytes} {rest names : List Bytes} (h : Anchored p c rest names) :
    (rest = [] ∧ lstDir p = [c]) ∨ ∃ p', comps p' = rest ∧
      lstDir p = closeWith ((cutDirs true p').1.foldl pushName [c]) (cutDirs true p').2 := by
  obtain ⟨⟨dots, hcomps, hdots, hroot⟩, ⟨h1, h2⟩, _, hmore⟩ := h
  induction dots generalizing p with
  | nil =>
    rw [List.nil_append] at hcomps
    by_cases hrest : rest = []
    · rw [hrest] at hcomps
      obtain ⟨rfl, hcut⟩ := cutDirs_single hcomps
      have hne : p ≠ [] := fun hnil => hmore hnil hrest
      refine Or.inl ⟨hrest, ?_⟩
      rw [lstDir_eq, hcut]
      simp [closeWith, hne]
    · obtain ⟨p', hp', hcut⟩ := cutDirs_first hcomps hrest
      refine Or.inr ⟨p', hp', ?_⟩
      rw [lstDir_eq, hcut, List.foldl_cons, pushName_other h1 h2]
      rfl
  | cons d dots ih =>
    have hc : c ≠ [] := fun hnil => by cases hroot hnil
    have hdot : d = dot := hdots d List.mem_cons_self
    subst hdot
    obtain ⟨p', hp', hcut⟩ := cutDirs_first hcomps (by simp)
    have hfresh : cutDirs true p' = cutDirs false p' := by
      cases dots with
      | nil => exact cutDirs_fresh hp' hc
      | cons d dots =>
        apply cutDirs_fresh hp'
        rw [hdots d (List.mem_cons_of_mem _ List.mem_cons_self)]
        decide
    have hsame : lstDir p = lstDir p' := by
      rw [lstDir_eq, hcut, List.foldl_cons, pushName_dot, hfresh]
      rfl
    rw [hsame]
    exact ih hp' (fun d hd => hdots d (List.mem_cons_of_mem _ hd)) (fun hnil => absurd hnil hc)

/-! ## What is made -/

theorem mem_madeDirs {str_dir q : Bytes} {ds : List Bytes} (h : q ∈ madeDirs str_dir ds) :
    ∃ k < ds.length, q = str_dir ++ (ds.take (k + 1)).flatMap (fun d => d ++ [47]) := by
  induction ds generalizing str_dir with
  | nil => cases h
  | cons d ds ih =>
    rcases List.mem_cons.mp h with rfl | h
    · exact ⟨0, by simp, by simp⟩
    · obtain ⟨k, hk, rfl⟩ := ih h
      refine ⟨k + 1, by simpa using hk, ?_⟩
      rw [List.take_succ_cons, List.flatMap_cons, ← List.append_assoc, ← List.append_assoc]

theorem comps_made (ds : List Bytes) :
    comps (ds.flatMap (fun d => d ++ [47])) = ds.flatMap comps ++ [[]] := by
  induction ds with
  | nil => rfl
  | cons d ds ih =>
    have hsep : isSep 47 = true := rfl
    rw [List.flatMap_cons, List.append_assoc, List.singleton_append, comps_append hsep, ih,
      List.flatMap_cons, List.append_assoc]

variable {dir c p q : Bytes} {rest rest' names names' : List Bytes}

/-- The directories that are made for a path which goes along the names of a directory lie
below the directory, or on the way to it. -/
theorem createDirs_along (hdir : Anchored dir c rest names) (h : Anchored p c rest' names')
    (halong : Along names [] rest') (hq : q ∈ createDirs p) : Under dir q ∨ Under q dir := by
  have hlist : ∃ lst place, lstDir p = c :: lst ∧ Stacked names lst place := by
    rcases lstDir_anchored h with ⟨_, hlst⟩ | ⟨p', hp', hlst⟩
    · exact ⟨[], [], hlst, Stacked.nil names⟩
    · have hshort := (short_dirNames p').2
      have hsplit := flatMap_dirNames p' true
      rw [dirNames, List.flatMap_append, List.flatMap_singleton] at hsplit
      rw [← hp', ← hsplit] at halong
      obtain ⟨lst, place, hfold, hstacked, hlast⟩ := (Stacked.nil names).foldl
        (fun d hd => hshort d (List.mem_append_left _ hd)) halong c
      rw [hlst, hfold]
      unfold closeWith
      split
      · obtain ⟨place', _, hpush⟩ :=
          hstacked.push (hshort _ (List.mem_append_right _ (List.mem_singleton_self _))) hlast
        exact ⟨_, place', rfl, hpush⟩
      · exact ⟨lst, place, rfl, hstacked⟩
  obtain ⟨lst, place, hlst, hstacked⟩ := hlist
  unfold createDirs at hq
  rw [hlst] at hq
  obtain ⟨k, _, rfl⟩ := mem_madeDirs hq
  obtain ⟨there, hthere, hnear⟩ := hstacked.beginnings k
  have hwhole : Whole c := by
    obtain ⟨dots, hcomps, _⟩ := h.comps_eq
    apply whole_comps p
    rw [hcomps]
    simp
  have hmade : Anchored (((c :: lst).take (k + 1)).flatMap (fun d => d ++ [47])) c
      ((lst.take k).flatMap comps ++ [[]]) there := by
    refine ⟨⟨[], ?_, by simp, fun _ => rfl⟩, h.start, ?_, by simp⟩
    · rw [comps_made, List.take_succ_cons, List.flatMap_cons, comps_whole hwhole]
      rfl
    · rw [walk_append, hthere]
      exact walk_skip (Or.inl rfl) there []
  rw [List.nil_append]
  rcases hnear with hon | hbelow
  · exact Or.inr (hmade.under hdir hon)
  · exact Or.inl (hdir.under hmade hbelow)

end util.ao_file_control
