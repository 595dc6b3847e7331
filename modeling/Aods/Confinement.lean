-- Where the files of a package go. Nothing checks the names of an archive, so a name that
-- climbs leads out of the work directory, and so does one that the shell cuts into
-- several. The law says what stays in it: all that is done for an archive whose names do
-- not climb above their beginning and are nothing special to the shell.
import Aods.CreateDirs
import Aods.NormalPaths

open machine traced paths shell
open util.ao_file util.ao_file_control util.json
open aods.download_thread (enDrSuc)
open aods.update_module_mgr

namespace aods.confinement

/-! ## The pure model -/

/-- A path that `CreateDirs` gets. It does nothing with an empty one. In a directory without
".." all that it makes lies in the directory, or on the way to it. -/
def DirUnder (dir p : Bytes) : Prop :=
  (p = [] ∨ Under dir p) ∧ (dotDot ∉ comps dir → ∀ q ∈ createDirs p, Under dir q ∨ Under q dir)

/-- The shell reads a command as a call whose operands lie under a directory. -/
def CallsUnder (env : Bytes → Bytes) (dir cmd program option : Bytes) : Prop :=
  ∃ operands, Calls env cmd program option operands ∧ ∀ o ∈ operands, Under dir o

/-- What the unpacking opens, moves or makes lies under a directory. Its commands are what the
shell makes of them. That of the module itself is no part of the unpacking. -/
def Confined (env : Bytes → Bytes) (mi : ModuleInfo) (dir : Bytes) : Effect → Prop
  | .made_dirs _ p => DirUnder dir p
  | .create_dirs p => DirUnder dir p
  | .cut_file src dest => CallsUnder env dir (moveCmd .linux src dest) (text "mv") (text "-f")
  | .opened _ p _ => Under dir p
  | .ran_cmd cmd => cmd = mi.str_cmd ∨ CallsUnder env dir cmd (text "chmod") (text "+x")
  | .del_file _ => True
  | .save_cfg _ => True
  | .send_out _ => True

/-- The place of the backups of a module, below the work directory. -/
def bakPlace (prj module : Bytes) : Bytes := text "bak" ++ 47 :: (prj ++ 47 :: module)

/-- A name that does not climb above its beginning. That of a file is not just a way back to it
behind a last separator. -/
def Stays (e : ZipEntry) : Prop :=
  ∃ names, walk [] (comps (cstr e.name)) = some names ∧
    (e.isDir = false → names ≠ [] ∨ (cut (cstr e.name)).2 ≠ [])

/-- Nothing in the name of an entry is special to the shell in double quotes, and when its file
is made executable, nothing in the path is special outside of quotes. -/
def Unspecial (dir : Bytes) (e : ZipEntry) : Prop :=
  Quiet (cstr e.name) ∧ (e.isDir = false → executable (standPath dir e) → Bare (standPath dir e))

instance (dir : Bytes) (e : ZipEntry) : Decidable (Unspecial dir e) :=
  inferInstanceAs (Decidable (_ ∧ (_ → _ → _)))

/-! ## Paths below an anchored directory -/

theorem comps_getLast {p : Bytes} {rest : List Bytes} (h : rest ++ comps p ≠ []) :
    (rest ++ comps p).getLast h = (cut p).2 := by
  rw [List.getLast_append_of_ne_nil h (comps_ne_nil p)]
  simp [comps]

variable {dir c q : Bytes} {rest names names' : List Bytes}

theorem dirUnder_nil (dir : Bytes) : DirUnder dir [] := by
  refine ⟨Or.inl rfl, fun _ q hq => ?_⟩
  cases hq

theorem dirUnder_anchored (hdir : Anchored dir c rest names) {p : Bytes} {rest' : List Bytes}
    (h : Anchored p c rest' (names ++ names'))
    (halong : dotDot ∉ comps dir → Along names [] rest') : DirUnder dir p :=
  ⟨Or.inr (hdir.under h (List.prefix_append names names')), fun hdown _ hq =>
    createDirs_along hdir h (halong hdown) hq⟩

theorem dirUnder_pathName (hdir : Anchored dir c rest names) {p : Bytes} {rest' names₁ : List Bytes}
    (h : Anchored p c rest' names₁) (hrest : rest' ≠ []) (before : List Bytes)
    (hbefore : walk [] rest'.dropLast = some (names ++ before))
    (halong : dotDot ∉ comps dir → Along names [] rest'.dropLast) : DirUnder dir (pathName p) := by
  by_cases hroot : c = [] ∧ rest'.dropLast = []
  · obtain ⟨hc, hdrop⟩ := hroot
    obtain ⟨dots, hcomps, _, hdots⟩ := h.comps_eq
    rw [hdots hc, List.nil_append, hc] at hcomps
    have hfirst : (comps p).dropLast = [[]] := by
      rw [hcomps, List.dropLast_cons_of_ne_nil hrest, hdrop]
    have hname := comps_pathName (p := p) (by rw [hfirst]; exact List.cons_ne_nil _ _)
    rw [hfirst] at hname
    rw [comps_eq_nil hname]
    exact dirUnder_nil dir
  · exact dirUnder_anchored hdir
      (anchored_pathName h hrest hbefore fun hc hdrop => hroot ⟨hc, hdrop⟩) halong

theorem walk_dropLast_append (hdir : Anchored dir c rest names)
    (hq : walk [] (comps q) = some names') :
    ∃ before, walk [] (comps q).dropLast = some before ∧ walk before [(cut q).2] = some names' ∧
      (rest ++ comps q).dropLast = rest ++ (comps q).dropLast ∧
      walk [] (rest ++ (comps q).dropLast) = some (names ++ before) := by
  obtain ⟨before, hbefore, hlast⟩ := walk_dropLast hq (comps_ne_nil q)
  have hend : (comps q).getLast (comps_ne_nil q) = (cut q).2 := by simp [comps]
  rw [hend] at hlast
  refine ⟨before, hbefore, hlast, List.dropLast_append_of_ne_nil (comps_ne_nil q), ?_⟩
  have hbehind := walk_behind hbefore names
  rw [List.append_nil] at hbehind
  rw [walk_append, hdir.walks]
  exact hbehind

/-! ## Normalised paths -/

/-- A path below a directory is normalised to its names, and its last component as it was. -/
theorem stand_anchored (hdir : Anchored dir c rest names) (hq : walk [] (comps q) = some names')
    (hroot : c = [] → names ++ names' ≠ [] ∨ (cut q).2 ≠ []) :
    ∃ before, (∀ d ∈ names ++ before, Proper d) ∧
      walk [] (before ++ lastPart (cut q).2) = some names' ∧
      walk before [(cut q).2] = some names' ∧
      Anchored (toStandardlPath (dir ++ 47 :: q) [47]) c (names ++ (before ++ lastPart (cut q).2))
        (names ++ names') := by
  have hpath := hdir.append (b := 47) rfl hq
  have hrest : rest ++ comps q ≠ [] := List.append_ne_nil_of_right_ne_nil _ (comps_ne_nil q)
  rw [← comps_getLast hrest] at hroot
  obtain ⟨before, hbefore, hproper, hstand⟩ := anchored_toStandardlPath hpath hrest hroot
  obtain ⟨before', _, hlast, hdrop, hbefore'⟩ := walk_dropLast_append hdir hq
  rw [hdrop, hbefore'] at hbefore
  cases hbefore
  rw [comps_getLast hrest, List.append_assoc] at hstand
  refine ⟨before', hproper, ?_, hlast, hstand⟩
  rw [walk_append, walk_names (fun d hd => hproper d (List.mem_append_right _ hd)), List.nil_append,
    Option.bind_some]
  unfold lastPart
  split
  · rename_i hnil
    rw [hnil, walk_skip (Or.inl rfl)] at hlast
    exact hlast
  · exact hlast

/-- What is left of a path that leads back to the root behind a last separator. -/
theorem toStandardlPath_nil {p : Bytes} {rest' : List Bytes} (h : Anchored p [] rest' [])
    (hrest : rest' ≠ []) (hlast : rest'.getLast hrest = []) : toStandardlPath p [47] = [] := by
  obtain ⟨before, _, hwalk, hstd⟩ := stdDirs_anchored h hrest
  rw [hlast, walk_skip (Or.inl rfl)] at hwalk
  cases hwalk
  unfold toStandardlPath
  rw [hstd, hlast]
  rfl

theorem dir_confined (hdir : Anchored dir c rest names) (hq : walk [] (comps q) = some names') :
    DirUnder dir (toStandardlPath (dir ++ 47 :: q) [47]) := by
  by_cases hroot : c = [] ∧ names ++ names' = [] ∧ (cut q).2 = []
  · obtain ⟨rfl, hnames, hlast⟩ := hroot
    have hpath := hdir.append (b := 47) rfl hq
    have hrest : rest ++ comps q ≠ [] := List.append_ne_nil_of_right_ne_nil _ (comps_ne_nil q)
    rw [hnames] at hpath
    rw [toStandardlPath_nil hpath hrest (by rw [comps_getLast hrest]; exact hlast)]
    exact dirUnder_nil dir
  · have hroot' : c = [] → names ++ names' ≠ [] ∨ (cut q).2 ≠ [] := by
      intro hc
      rw [← not_and_or]
      exact fun hboth => hroot ⟨hc, hboth⟩
    obtain ⟨before, _, hwalk, _, hstand⟩ := stand_anchored hdir hq hroot'
    exact dirUnder_anchored hdir hstand (fun _ => along_names hdir.proper hwalk)

/-- A file of the archive: its normalised path, the directory of this, and what it is normalised
to once more. -/
theorem stand_confined (hdir : Anchored dir c rest names) (hq : walk [] (comps q) = some names')
    (hfile : names' ≠ [] ∨ (cut q).2 ≠ []) :
    Under dir (toStandardlPath (dir ++ 47 :: q) [47]) ∧
      DirUnder dir (pathName (toStandardlPath (dir ++ 47 :: q) [47])) ∧
      Under dir (toStandardlPath (toStandardlPath (dir ++ 47 :: q) [47]) [47]) := by
  have hroot : names ++ names' ≠ [] ∨ (cut q).2 ≠ [] :=
    hfile.imp_left (List.append_ne_nil_of_right_ne_nil names)
  obtain ⟨before, hproper, hwalk, hlast, hstand⟩ := stand_anchored hdir hq (fun _ => hroot)
  refine ⟨hdir.under hstand (List.prefix_append names names'), ?_⟩
  have hbefore : walk [] before = some before :=
    walk_names (fun d hd => hproper d (List.mem_append_right _ hd)) []
  unfold lastPart at hstand
  by_cases hnil : (cut q).2 = []
  · -- behind a last separator the normalised path ends in its last name
    rw [hnil, walk_skip (Or.inl rfl)] at hlast
    cases hlast
    have hne : names' ≠ [] := hfile.resolve_right (not_not.mpr hnil)
    have hnames : names ++ names' ≠ [] := List.append_ne_nil_of_right_ne_nil names hne
    have hdrop : (names ++ names').dropLast = names ++ names'.dropLast :=
      List.dropLast_append_of_ne_nil hne
    have hshorter : ∀ d ∈ names'.dropLast, Proper d := fun d hd =>
      hproper d (List.mem_append_right _ (List.dropLast_subset names' hd))
    rw [if_pos hnil, List.append_nil] at hstand
    refine ⟨dirUnder_pathName hdir hstand hnames names'.dropLast ?_ fun _ => ?_, ?_⟩
    · rw [hdrop]
      refine walk_names (fun d hd => ?_) []
      rcases List.mem_append.mp hd with hd | hd
      · exact hdir.proper d hd
      · exact hshorter d hd
    · rw [hdrop]
      exact along_names hdir.proper (walk_names hshorter [])
    · obtain ⟨_, _, _, hagain⟩ := anchored_toStandardlPath hstand hnames (fun _ => Or.inl hnames)
      exact hdir.under hagain (List.prefix_append names names')
  · rw [if_neg hnil, ← List.append_assoc] at hstand
    have hne : names ++ before ++ [(cut q).2] ≠ [] :=
      List.append_ne_nil_of_right_ne_nil _ (List.cons_ne_nil _ _)
    refine ⟨dirUnder_pathName hdir hstand hne before ?_ fun _ => ?_, ?_⟩
    · rw [List.dropLast_concat]
      exact walk_names hproper []
    · rw [List.dropLast_concat]
      exact along_names hdir.proper hbefore
    · obtain ⟨_, _, _, hagain⟩ :=
        anchored_toStandardlPath hstand hne
          (fun _ => Or.inr (by rw [List.getLast_concat]; exact hnil))
      exact hdir.under hagain (List.prefix_append names names')

theorem bak_confined (hdir : Anchored dir c rest names) (hq : walk [] (comps q) = some names')
    (hfile : names' ≠ [] ∨ (cut q).2 ≠ []) :
    DirUnder dir (pathName (dir ++ 47 :: q)) ∧
      Under dir (toStandardlPath (dir ++ 47 :: q) [47]) := by
  have hpath := hdir.append (b := 47) rfl hq
  have hrest : rest ++ comps q ≠ [] := List.append_ne_nil_of_right_ne_nil _ (comps_ne_nil q)
  obtain ⟨before, hbefore, _, hdrop, hall⟩ := walk_dropLast_append hdir hq
  refine ⟨dirUnder_pathName hdir hpath hrest before ?_ fun hdown => ?_,
    (stand_confined hdir hq hfile).1⟩
  · rw [hdrop]
    exact hall
  · rw [hdrop]
    exact hdir.along hdown hbefore

theorem bakPath_eq (dir prj module : Bytes) (e : ZipEntry) :
    bakPath dir prj module e = dir ++ 47 :: (bakPlace prj module ++ 47 :: cstr e.name) := by
  simp [bakPath, bakPlace]

theorem cut_append (p q : Bytes) : (cut (p ++ 47 :: q)).2 = (cut q).2 := by
  have hcomps : comps (p ++ 47 :: q) = comps p ++ comps q := comps_append rfl p q
  have hlists : (cut (p ++ 47 :: q)).1 ++ [(cut (p ++ 47 :: q)).2] =
      (comps p ++ (cut q).1) ++ [(cut q).2] := by
    rw [List.append_assoc]
    exact hcomps
  exact List.cons.inj (List.append_inj' hlists rfl).2 |>.1

variable {prj module : Bytes} {e : ZipEntry}

/-- A file is moved to its backup below the directory. -/
theorem cut_confined (env : Bytes → Bytes) (hdir : Anchored dir c rest names)
    (hc : c.head? ≠ some 45) {p q : Bytes} {pnames qnames : List Bytes}
    (hp : walk [] (comps p) = some pnames) (hq : walk [] (comps q) = some qnames)
    (hquiet : Quiet (dir ++ 47 :: p)) (hquiet' : Quiet (dir ++ 47 :: q))
    (hsrc : Under dir (toStandardlPath (dir ++ 47 :: p) [47]))
    (hdest : Under dir (toStandardlPath (dir ++ 47 :: q) [47])) :
    CallsUnder env dir (moveCmd .linux (toStandardlPath (dir ++ 47 :: p) [47])
      (toStandardlPath (dir ++ 47 :: q) [47]))
      (text "mv") (text "-f") := by
  have hbehind : ∀ r : Bytes, rest ++ comps r ≠ [] :=
    fun r => List.append_ne_nil_of_right_ne_nil _ (comps_ne_nil r)
  have hhead := head_toStandardlPath (hdir.append (b := 47) rfl hp) (hbehind p) hc
  have hhead' := head_toStandardlPath (hdir.append (b := 47) rfl hq) (hbehind q) hc
  refine ⟨_, ⟨words_moveCmd env (quotable_toStandardlPath (quiet_toStandardlPath hquiet))
    (quotable_toStandardlPath (quiet_toStandardlPath hquiet')), ?_⟩, ?_⟩
  · intro o ho
    rcases List.mem_pair.mp ho with rfl | rfl
    · exact hhead
    · exact hhead'
  · intro o ho
    rcases List.mem_pair.mp ho with rfl | rfl
    · exact hsrc
    · exact hdest

theorem quiet_bakPlace (hprj : Quiet prj) (hmodule : Quiet module) :
    Quiet (bakPlace prj module) := by
  have hbak : Quiet (text "bak") := by decide
  unfold bakPlace
  rw [quiet_append, quiet_sep, quiet_append, quiet_sep]
  exact ⟨hbak, hprj, hmodule⟩

/-- All that is done for an entry that stays is confined. -/
theorem unpackEntry_confined (env : Bytes → Bytes) (mi : ModuleInfo)
    (hdir : Anchored dir c rest names) (hc : c.head? ≠ some 45) (hquiet : Quiet dir)
    (hbak : walk [] (comps (bakPlace prj module)) = some names')
    (hplaceQuiet : Quiet (bakPlace prj module)) (hstays : Stays e) (hun : Unspecial dir e) (n : Nat)
    (v : Visit) :
    Leaves (Confined env mi dir) (unpackEntry dir prj module n e v) := by
  obtain ⟨enames, hwalk, hfile⟩ := hstays
  obtain ⟨hname, hexe⟩ := hun
  apply unpackEntry_leaves
  · intro _
    exact dir_confined hdir hwalk
  · intro hd
    obtain ⟨hopened, hdirs, _⟩ := stand_confined hdir hwalk (hfile hd)
    have hplace : walk [] (comps (bakPlace prj module ++ 47 :: cstr e.name)) =
        some (names' ++ enames) := by
      have hbehind := walk_behind hwalk names'
      rw [List.append_nil] at hbehind
      rw [comps_append rfl, walk_append, hbak]
      exact hbehind
    have hplaceFile : names' ++ enames ≠ [] ∨
        (cut (bakPlace prj module ++ 47 :: cstr e.name)).2 ≠ [] := by
      rw [cut_append]
      exact (hfile hd).imp_left (List.append_ne_nil_of_right_ne_nil names')
    obtain ⟨hbakDirs, hdest⟩ := bak_confined hdir hplace hplaceFile
    have hfileQuiet : Quiet (dir ++ 47 :: cstr e.name) :=
      quiet_append.mpr ⟨hquiet, quiet_sep.mpr hname⟩
    have hbakQuiet : Quiet (dir ++ 47 :: (bakPlace prj module ++ 47 :: cstr e.name)) :=
      quiet_append.mpr ⟨hquiet, quiet_sep.mpr (quiet_append.mpr ⟨hplaceQuiet, quiet_sep.mpr hname⟩)⟩
    have hcut := cut_confined env hdir hc hwalk hplace hfileQuiet hbakQuiet hopened hdest
    rw [← bakPath_eq] at hbakDirs hcut
    refine ⟨hbakDirs, ?_, hdirs, fun _ => hopened, fun hexecutable => Or.inr ?_⟩
    · rw [standPath_again]
      exact hcut
    · have hrest : rest ++ comps (cstr e.name) ≠ [] :=
        List.append_ne_nil_of_right_ne_nil _ (comps_ne_nil _)
      have hhead := head_toStandardlPath (hdir.append (b := 47) rfl hwalk) hrest hc
      obtain ⟨operands, hcalls, hpath⟩ := calls_chmodCmd env (hexe hd hexecutable) hhead
      refine ⟨operands, hcalls, fun o ho => ?_⟩
      rw [hpath o ho]
      exact hopened

/-! ## An archive with one file -/

theorem anchored_letter : Anchored (workDir letterPath letterModule) [] [[119]] [[119]] where
  comps_eq := ⟨[], by decide, by simp, fun _ => rfl⟩
  start := by decide
  walks := by decide
  more := by simp

/-- A module with a work directory and no command. -/
def moduleAt (str_wd : Bytes) : ModuleInfo := ⟨[], [], str_wd, []⟩

/-- The result of a package of a module. -/
def resultOf (prj module : Bytes) : DownloadResult :=
  ⟨enDrSuc, msg_def.names [prj, module, [118], [104], [117], [102], [107]]⟩

/-- The program was started as a file of the current directory. -/
def herePath : AppPath := ⟨[46], by decide, by decide⟩

/-- For an archive with one file, something is done outside of the work directory, whatever the
parameters of the shell are. -/
def Escapes (app_path : AppPath) (prj module str_wd name : Bytes) : Prop :=
  ∀ env : Bytes → Bytes, ∃ f ∈ (onDownloadResult app_path ⟨true, oneFile name, true⟩
    (clientOf prj module (moduleAt str_wd)) (resultOf prj module)).trace,
    ¬ Confined env (moduleAt str_wd) (workDir app_path (moduleAt str_wd)) f

theorem escapes {app_path : AppPath} {prj module str_wd name dir stand bak : Bytes}
    (hprj : (resultOf prj module).prj = prj) (hmodule : (resultOf prj module).module = module)
    (hun : Unpacks app_path ⟨true, oneFile name, true⟩ (moduleAt str_wd) (resultOf prj module))
    (hdir : workDir app_path (moduleAt str_wd) = dir)
    (hstand : standPath dir ⟨name, 0, [1]⟩ = stand)
    (hbak : bakPath dir prj module ⟨name, 0, [1]⟩ = bak)
    (hout : ¬ DirUnder dir (pathName bak) ∨ ¬ Under dir stand ∨ ∀ env, ¬ CallsUnder env dir
      (moveCmd .linux (toStandardlPath stand [47]) (toStandardlPath bak [47])) (text "mv")
      (text "-f")) :
    Escapes app_path prj module str_wd name := by
  have hfind : (clientOf prj module (moduleAt str_wd)).find (resultOf prj module).prj
      (resultOf prj module).module =
      some (moduleAt str_wd) := by
    rw [hprj, hmodule]
    exact find_clientOf ..
  obtain ⟨hdirs, hcut, hopened⟩ := oneFile_trace rfl hfind hun
  rw [hprj, hmodule, hdir, hbak] at hdirs hcut
  rw [hdir] at hopened
  rw [hstand] at hcut hopened
  intro env
  rw [hdir]
  rcases hout with hout | hout | hout
  · exact ⟨_, hdirs, hout⟩
  · exact ⟨_, hopened, hout⟩
  · exact ⟨_, hcut, hout env⟩

/-! ## The law -/

/-- In a work directory that begins at the root or at a name, with places of backups and names
of entries none of which climbs above its beginning or has a byte that is special to the shell,
all that the unpacking opens for writing, moves or makes as a directory lies under the work
directory, and so do the operands that the shell reads in its commands. -/
theorem names_that_do_not_climb_are_unpacked_under_the_work_directory (env : Bytes → Bytes)
    {app_path : AppPath} {x : Script} {s : State} {r : DownloadResult} {mi : ModuleInfo}
    (hfind : s.find r.prj r.module = some mi) (hdir : Anchored (workDir app_path mi) c rest names)
    (hc : c.head? ≠ some 45) (hquiet : Quiet (workDir app_path mi))
    (hbak : walk [] (comps (bakPlace r.prj r.module)) = some names') (hprj : Quiet r.prj)
    (hmodule : Quiet r.module)
    (hentries : ∀ ev ∈ x.archive, Stays ev.1 ∧ Unspecial (workDir app_path mi) ev.1) :
    ∀ f ∈ (onDownloadResult app_path x s r).trace, Confined env mi (workDir app_path mi) f := by
  apply onDownloadResult_leaves
  · exact ⟨fun _ => trivial, fun _ => trivial, fun _ => trivial⟩
  · intro mi' hmi
    rw [hfind] at hmi
    cases hmi
    refine ⟨Or.inl rfl, unpack_leaves (fun n ev hev => ?_) 0⟩
    obtain ⟨hstays, hun⟩ := hentries ev hev
    exact unpackEntry_confined env mi hdir hc hquiet hbak (quiet_bakPlace hprj hmodule)
      hstays hun n ev.2

/-- The file "f" is unpacked under "/w". -/
theorem a_plain_name_is_unpacked_under_the_work_directory :
    workDir letterPath letterModule = [47, 119] ∧
    ∀ f ∈ (onDownloadResult letterPath ⟨true, oneFile [102], true⟩ letterState
      (letterResult 0)).trace,
      Confined (fun _ => []) letterModule [47, 119] f := by
  refine ⟨rfl, ?_⟩
  have hbak : walk [] (comps (bakPlace [112] [109])) = some [text "bak", [112], [109]] := by decide
  have hfind : letterState.find (letterResult 0).prj (letterResult 0).module = some letterModule :=
    find_letterState
  apply names_that_do_not_climb_are_unpacked_under_the_work_directory (fun _ => []) hfind
    anchored_letter
  · decide
  · decide
  · exact hbak
  · decide
  · decide
  · intro ev hev
    rw [List.mem_singleton.mp hev]
    exact ⟨⟨[[102]], by decide, fun _ => Or.inl (by decide)⟩, by decide⟩

/-- In "/w", the file "../f" is opened for writing as "/f". With the work directory "../w" of a
program at ".", the file "f" is opened as "w/f". For the module ".." of the project "..",
a backup of "f" is made in "/w/bak/../..". And for a file with the name `a" "data`, the shell
reads four operands, two of them "data" in the directory of the program. -/
theorem names_that_climb_are_unpacked_outside :
    Escapes letterPath [112] [109] [47, 119] [46, 46, 47, 102] ∧
    Escapes herePath [112] [109] [46, 46, 47, 119] [102] ∧
    Escapes letterPath [46, 46] [46, 46] [47, 119] [102] ∧
    Escapes letterPath [112] [109] [47, 119] (text "a\" \"data") := by
  refine ⟨?_, ?_, ?_, ?_⟩
  · exact escapes (by decide) (by decide) ⟨rfl, by decide, by decide⟩ rfl rfl rfl
      (Or.inr (Or.inl (by decide)))
  · exact escapes (by decide) (by decide) ⟨rfl, by decide, by decide⟩ rfl rfl rfl
      (Or.inr (Or.inl (by decide)))
  · exact escapes (by decide) (by decide) ⟨rfl, by decide, by decide⟩ rfl rfl rfl
      (Or.inl fun h => absurd h.1 (by decide))
  · refine escapes (by decide) (by decide) ⟨rfl, by decide, by decide⟩ rfl rfl rfl
      (Or.inr (Or.inr fun env => ?_))
    rintro ⟨operands, ⟨hwords, _⟩, hunder⟩
    have hread : words env (moveCmd .linux (text "/w/a\" \"data") (text "/w/bak/p/m/a\" \"data")) =
        some [text "mv", text "-f", text "/w/a", text "data", text "/w/bak/p/m/a", text "data"] :=
      rfl
    have hwords :
        some [text "mv", text "-f", text "/w/a", text "data", text "/w/bak/p/m/a", text "data"] =
          some (text "mv" :: text "-f" :: operands) := hread.symm.trans hwords
    cases hwords
    exact absurd (hunder (text "data") (by decide)) (by decide)

end aods.confinement
