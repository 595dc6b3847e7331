-- The normaliser on its own output. A normalised path is written from components that the
-- loop keeps, so it is cut into the same components again, and `CutFile`, which normalises
-- once more, names the file that `OnDownloadResult` found and opens behind the move. The
-- shell reads this command first: it moves that file when nothing in the paths is special
-- to the shell.
import Aods.PathMeanings
import Aods.ResultReports
import Aods.Shell

open machine paths shell traced
open util.json (text)
open util.ao_file (written reads)
open aods.download_thread (enDrSuc)

namespace util.ao_file_control

/-! ## The source -/

/-- The systems that `CutFile` is compiled for. -/
inductive System where
  | linux
  | win32
  deriving DecidableEq, Repr

/-- The separator of the system. -/
def System.split : System → Bytes
  | .linux => [47]
  | .win32 => [92]

/-- The command that moves one file over another. -/
def moveCmd (os : System) (src_path dest_path : Bytes) : Bytes :=
  match os with
  | .linux => text "mv -f " ++ 34 :: (src_path ++ text "\" \"" ++ dest_path ++ [34])
  | .win32 => text "move /Y " ++ 34 :: (src_path ++ text "\" \"" ++ dest_path ++ [34])

/-- `CutFile`, up to the command that it runs. -/
def cutFile (os : System) (src dest : Bytes) : Bytes :=
  moveCmd os (toStandardlPath src os.split) (toStandardlPath dest os.split)

/-! ## Components of a normalised path -/

/-- The empty component in front that stands for the root. -/
def mark (m : Bool) : List Bytes := if m then [[]] else []

/-- The loop keeps a mark and the names behind it. -/
theorem foldl_pushDir_settled (m : Bool) {ns : List Bytes} (h : ∀ c ∈ ns, Proper c) :
    (mark m ++ ns).foldl pushDir [] = mark m ++ ns := by
  have hname : ∀ (ds : List Bytes) (c : Bytes), Proper c → pushDir ds c = ds ++ [c] := by
    rintro ds c ⟨h0, h1, h2⟩
    unfold pushDir
    rw [if_neg h2, if_pos ⟨h1, Or.inl (List.length_pos_iff.mpr h0)⟩]
  have hmark : (mark m).foldl pushDir [] = mark m := by
    cases m with
    | true => rfl
    | false => rfl
  induction ns using List.reverseRecOn with
  | nil =>
    rw [List.append_nil]
    exact hmark
  | append_singleton ns c ih =>
    rw [← List.append_assoc, List.foldl_append, ih (fun d hd => h d (List.mem_append_left _ hd)),
      List.foldl_cons, List.foldl_nil]
    exact hname _ c (h c (by simp))

/-- Names and a last component are nothing, or names and one component that is not empty. -/
theorem names_lastPart {ns : List Bytes} (hns : ∀ c ∈ ns, Proper c ∧ Whole c) {last : Bytes}
    (hlast : Whole last) :
    ns ++ lastPart last = [] ∨ ∃ before d, ns ++ lastPart last = before ++ [d] ∧ d ≠ [] ∧ Whole d ∧
      ∀ c ∈ before, Proper c ∧ Whole c := by
  unfold lastPart
  split
  · rw [List.append_nil]
    rcases List.eq_nil_or_concat' ns with rfl | ⟨before, d, rfl⟩
    · exact Or.inl rfl
    · have hd := hns d (by simp)
      exact Or.inr ⟨before, d, rfl, hd.1.1, hd.2, fun c hc => hns c (List.mem_append_left _ hc)⟩
  · rename_i hne
    exact Or.inr ⟨ns, last, rfl, hne, hlast, hns⟩

/-- Components that the loop keeps are read back from the path that they are joined to. -/
theorem stdDirs_joinDirs {b : UInt8} (hb : isSep b = true) (m : Bool) {before : List Bytes}
    {d : Bytes} (hd : d ≠ []) (hwhole : Whole d) (h : ∀ c ∈ before, Proper c ∧ Whole c) :
    stdDirs (joinDirs [b] (mark m ++ (before ++ [d]))) = mark m ++ (before ++ [d]) := by
  have hall : ∀ c ∈ mark m ++ (before ++ [d]), Whole c := by
    intro c hc
    rcases List.mem_append.mp hc with hc | hc
    · have hnil : c = [] := by
        cases m with
        | true => exact List.mem_singleton.mp hc
        | false => cases hc
      rw [hnil]
      intro b hb
      cases hb
    · rcases List.mem_append.mp hc with hc | hc
      · exact (h c hc).2
      · rw [List.mem_singleton.mp hc]
        exact hwhole
  have hsome : mark m ++ (before ++ [d]) ≠ [] := by simp
  obtain ⟨c, cs, hcs⟩ := List.exists_cons_of_ne_nil hsome
  have hcomps : comps (joinDirs [b] (mark m ++ (before ++ [d]))) = mark m ++ before ++ [d] := by
    rw [hcs, comps_joinDirs hb (by rw [← hcs]; exact hall), ← hcs, List.append_assoc]
  obtain ⟨hclosed, hend⟩ := List.append_inj' hcomps rfl
  rw [List.cons.injEq] at hend
  unfold stdDirs
  dsimp only
  rw [hclosed, hend.1, foldl_pushDir_settled m (fun c hc => (h c hc).1), if_pos hd,
    List.append_assoc]

theorem toStandardlPath_again {b : UInt8} (hb : isSep b = true) (p : Bytes) :
    toStandardlPath (toStandardlPath p [b]) [b] = toStandardlPath p [b] := by
  classical
  obtain ⟨m, hmark⟩ : ∃ m, stdDirs p = mark m ++ ((outset p).names ++ lastPart (cut p).2) :=
    ⟨decide (Marked (rooted p) (cut p).1), (stdDirs_eq p).trans (List.append_assoc _ _ _)⟩
  unfold toStandardlPath
  rw [hmark]
  rcases names_lastPart (place_names_proper _ (whole_cut p).1) (whole_cut p).2 with hnil |
    ⟨before, d, hsplit, hd, hwhole, hbefore⟩
  · -- nothing but a mark, which is written as the empty path
    unfold outset
    rw [hnil, List.append_nil]
    cases m with
    | true => rfl
    | false => rfl
  · unfold outset
    rw [hsplit, stdDirs_joinDirs hb m hd hwhole hbefore]

theorem isSep_split (os : System) : ∃ b, os.split = [b] ∧ isSep b = true := by
  cases os with
  | linux => exact ⟨47, rfl, rfl⟩
  | win32 => exact ⟨92, rfl, rfl⟩

/-! ## Bytes of a normalised path -/

theorem mem_joinDirs {split : Bytes} {ds : List Bytes} {b : UInt8} (h : b ∈ joinDirs split ds) :
    b ∈ split ∨ ∃ d ∈ ds, b ∈ d := by
  have hfold : ∀ (ds : List Bytes) (s : Bytes),
      b ∈ ds.foldl (fun str_dest dir => str_dest ++ (split ++ dir)) s →
          b ∈ s ∨ b ∈ split ∨ ∃ d ∈ ds, b ∈ d := by
    intro ds
    induction ds with
    | nil => exact fun _ => Or.inl
    | cons d ds ih =>
      intro s hb
      rcases ih _ hb with hb | hb | ⟨d', hd', hb⟩
      · rcases List.mem_append.mp hb with hb | hb
        · exact Or.inl hb
        · rcases List.mem_append.mp hb with hb | hb
          · exact Or.inr (Or.inl hb)
          · exact Or.inr (Or.inr ⟨d, List.mem_cons_self, hb⟩)
      · exact Or.inr (Or.inl hb)
      · exact Or.inr (Or.inr ⟨d', List.mem_cons_of_mem d hd', hb⟩)
  cases ds with
  | nil => cases h
  | cons d ds =>
    rcases hfold ds d h with hb | hb | ⟨d', hd', hb⟩
    · exact Or.inr ⟨d, List.mem_cons_self, hb⟩
    · exact Or.inl hb
    · exact Or.inr ⟨d', List.mem_cons_of_mem d hd', hb⟩

theorem mem_foldl_pushDir {cs ds : List Bytes} {d : Bytes} (h : d ∈ cs.foldl pushDir ds) :
    d ∈ ds ∨ d ∈ cs := by
  induction cs generalizing ds with
  | nil => exact Or.inl h
  | cons c cs ih =>
    rw [List.foldl_cons] at h
    rcases ih h with hd | hd
    · unfold pushDir at hd
      split at hd
      · exact Or.inl (List.dropLast_subset ds hd)
      · split at hd
        · rcases List.mem_append.mp hd with hd | hd
          · exact Or.inl hd
          · exact Or.inr (List.mem_cons.mpr (Or.inl (List.mem_singleton.mp hd)))
        · exact Or.inl hd
    · exact Or.inr (List.mem_cons_of_mem c hd)

theorem mem_stdDirs {p d : Bytes} (h : d ∈ stdDirs p) : d ∈ comps p := by
  unfold stdDirs at h
  dsimp only at h
  have hclosed : d ∈ (cut p).1.foldl pushDir [] → d ∈ comps p := by
    intro hd
    rcases mem_foldl_pushDir hd with hd | hd
    · cases hd
    · exact List.mem_append_left _ hd
  split at h
  · rcases List.mem_append.mp h with hd | hd
    · exact hclosed hd
    · exact List.mem_append_right _ hd
  · exact hclosed h

theorem mem_comps {p d : Bytes} {b : UInt8} (hd : d ∈ comps p) (hb : b ∈ d) : b ∈ p := by
  induction p generalizing d with
  | nil =>
    rw [List.mem_singleton.mp hd] at hb
    exact hb
  | cons a p ih =>
    cases ha : isSep a with
    | true =>
      rw [comps_sep ha] at hd
      rcases List.mem_cons.mp hd with rfl | hd
      · cases hb
      · exact List.mem_cons_of_mem a (ih hd hb)
    | false =>
      obtain ⟨c, cs, hp, hap⟩ := comps_cons ha p
      rw [hap] at hd
      rw [hp] at ih
      rcases List.mem_cons.mp hd with rfl | hd
      · rcases List.mem_cons.mp hb with rfl | hb
        · exact List.mem_cons_self
        · exact List.mem_cons_of_mem a (ih List.mem_cons_self hb)
      · exact List.mem_cons_of_mem a (ih (List.mem_cons_of_mem c hd) hb)

/-- A normalised path has the bytes of its source, and one separator for both. -/
theorem mem_toStandardlPath {p : Bytes} {b : UInt8} (h : b ∈ toStandardlPath p [47]) :
    b = 47 ∨ b ∈ p ∧ isSep b = false := by
  rcases mem_joinDirs h with hb | ⟨d, hd, hb⟩
  · exact Or.inl (List.mem_singleton.mp hb)
  · have hcomp := mem_stdDirs hd
    exact Or.inr ⟨mem_comps hcomp hb, whole_comps p d hcomp b hb⟩

/-! ## What the shell makes of the command -/

/-- A path without `"`, `$` and the backquote. A backslash is a separator to the normaliser. -/
def Quiet (p : Bytes) : Prop := 34 ∉ p ∧ 36 ∉ p ∧ 96 ∉ p

instance (p : Bytes) : Decidable (Quiet p) := inferInstanceAs (Decidable (_ ∧ _ ∧ _))

theorem quiet_append {p q : Bytes} : Quiet (p ++ q) ↔ Quiet p ∧ Quiet q := by
  simp only [Quiet, List.mem_append, not_or]
  tauto

theorem quiet_sep {q : Bytes} : Quiet (47 :: q) ↔ Quiet q := by
  simp [Quiet]

theorem quotable_toStandardlPath {p : Bytes} (h : Quiet (toStandardlPath p [47])) :
    Quotable (toStandardlPath p [47]) := by
  intro b hb hspecial
  obtain ⟨hquote, hdollar, hback⟩ := h
  simp only [quoteSpecial, List.mem_cons, List.not_mem_nil, or_false] at hspecial
  rcases hspecial with rfl | rfl | rfl | rfl
  · exact hquote hb
  · exact hdollar hb
  · rcases mem_toStandardlPath hb with hsep | ⟨_, hsep⟩
    · cases hsep
    · cases hsep
  · exact hback hb

theorem quiet_toStandardlPath {p : Bytes} (h : Quiet p) : Quiet (toStandardlPath p [47]) := by
  have hnot : ∀ b, b ∉ p → b ≠ 47 → b ∉ toStandardlPath p [47] := by
    intro b hp hsep hb
    rcases mem_toStandardlPath hb with hb | ⟨hb, _⟩
    · exact hsep hb
    · exact hp hb
  exact ⟨hnot 34 h.1 (by decide), hnot 36 h.2.1 (by decide), hnot 96 h.2.2 (by decide)⟩

theorem words_moveCmd (env : Bytes → Bytes) {src dest : Bytes} (hsrc : Quotable src)
    (hdest : Quotable dest) :
    words env (moveCmd .linux src dest) = some [text "mv", text "-f", src, dest] := by
  have hcmd : moveCmd .linux src dest =
      text "mv" ++ 32 :: (text "-f" ++ 32 :: 34 :: (src ++ 34 :: 32 :: 34 :: (dest ++ [34]))) := by
    simp [moveCmd, text]
  rw [hcmd, words_bare_cons (by decide) (by decide), words_bare_cons (by decide) (by decide),
    words_quoted_cons hsrc, words_quoted hdest]
  rfl

theorem head_toStandardlPath {p c : Bytes} {rest names : List Bytes} (h : Anchored p c rest names)
    (hrest : rest ≠ []) (hc : c.head? ≠ some 45) : (toStandardlPath p [47]).head? ≠ some 45 := by
  obtain ⟨before, _, _, hstd⟩ := stdDirs_anchored h hrest
  have hfold : ∀ (ds : List Bytes) (b : UInt8) (s : Bytes),
      (ds.foldl (fun str_dest dir => str_dest ++ ([47] ++ dir)) (b :: s)).head? = some b := by
    intro ds
    induction ds with
    | nil => exact fun _ _ => rfl
    | cons d ds ih => exact fun b s => ih b (s ++ ([47] ++ d))
  unfold toStandardlPath
  rw [hstd]
  cases c with
  | cons b c =>
    unfold joinDirs
    rw [hfold]
    exact hc
  | nil =>
    cases before ++ lastPart (rest.getLast hrest) with
    | nil => simp [joinDirs]
    | cons d ds =>
      have hroot : joinDirs [47] ([] :: d :: ds) =
          ds.foldl (fun str_dest dir => str_dest ++ ([47] ++ dir)) (47 :: d) := rfl
      rw [hroot, hfold]
      decide

end util.ao_file_control

namespace aods.update_module_mgr

open util.ao_file_control

/-! ## What `OnDownloadResult` moves -/

/-- Each file that was moved had been found under the path of an entry, and is opened behind the
move under the same path. -/
def Moves (dir : Bytes) (archive : Archive) (trace : List Effect) : Prop :=
  ∀ src dest, .cut_file src dest ∈ trace → ∃ n e v file, (e, v) ∈ archive ∧ v.found = true ∧
    src = standPath dir e ∧
    .opened n src file ∈ trace

variable {dir : Bytes} {archive : Archive} {α β : Type}

theorem Moves.of_leaves {x : Traced Effect Fault α}
    (h : Leaves (fun f => ∀ src dest, f ≠ .cut_file src dest) x) :
    Moves dir archive x.trace :=
  fun src dest hcut => absurd rfl (h _ hcut src dest)

theorem Moves.append {t t' : List Effect} (h : Moves dir archive t) (h' : Moves dir archive t') :
    Moves dir archive (t ++ t') := by
  intro src dest hcut
  rcases List.mem_append.mp hcut with hcut | hcut
  · obtain ⟨n, e, v, file, hmem, hfound, hsrc, hopened⟩ := h src dest hcut
    exact ⟨n, e, v, file, hmem, hfound, hsrc, List.mem_append_left _ hopened⟩
  · obtain ⟨n, e, v, file, hmem, hfound, hsrc, hopened⟩ := h' src dest hcut
    exact ⟨n, e, v, file, hmem, hfound, hsrc, List.mem_append_right _ hopened⟩

theorem Moves.bind {x : Traced Effect Fault α} {f : α → Traced Effect Fault β}
    (hx : Moves dir archive x.trace) (hf : ∀ a, x.result = .ok a → Moves dir archive (f a).trace) :
    Moves dir archive (x >>= f).trace := by
  cases ha : x.result with
  | error e =>
    rw [(bind_result_error ha).1]
    exact hx
  | ok a =>
    rw [(bind_result_ok ha).1]
    exact hx.append (hf a ha)

theorem Moves.tail {ev : ZipEntry × Visit} {t : List Effect} (h : Moves dir archive t) :
    Moves dir (ev :: archive) t := by
  intro src dest hcut
  obtain ⟨n, e, v, file, hmem, hrest⟩ := h src dest hcut
  exact ⟨n, e, v, file, List.mem_cons_of_mem ev hmem, hrest⟩

theorem standPath_again (dir : Bytes) (e : ZipEntry) :
    toStandardlPath (standPath dir e) [47] = standPath dir e :=
  toStandardlPath_again rfl (filePath dir e)

/-- What is done for a file once the path of its backup fits ends in the opening of the file. -/
theorem unpackFile_opens {prj module bak : Bytes} {e : ZipEntry}
    (hbak : sprintfPath (bakPath dir prj module e) = .ok bak) (n : Nat) (v : Visit) :
    ∃ file, .opened n (standPath dir e) file ∈ (unpackFile dir prj module n e v).trace := by
  have hback := backUp_result v (standPath dir e) bak
  unfold unpackFile
  cases hopens : v.opens with
  | false => exact ⟨none, by simp [hbak, hback]⟩
  | true => exact ⟨some (unzipCurentFile e v).2, by simp [hbak, hback]⟩

/-- What is moved for an entry was found under its path, and the path is opened behind. -/
theorem unpackEntry_moves (prj module : Bytes) (n : Nat) {e : ZipEntry} {v : Visit}
    (h : (e, v) ∈ archive) :
    Moves dir archive (unpackEntry dir prj module n e v).trace := by
  unfold unpackEntry
  split
  · exact Moves.of_leaves (Leaves.pure _)
  refine Moves.bind (Moves.of_leaves (Leaves.attempt _)) (fun _ _ => ?_)
  split
  · exact Moves.of_leaves (Leaves.bind (Leaves.emit (by simp)) (fun _ _ => Leaves.pure _))
  intro src dest hcut
  cases hbak : sprintfPath (bakPath dir prj module e) with
  | error f =>
    unfold unpackFile at hcut
    simp [hbak] at hcut
  | ok bak =>
    obtain ⟨file, hopened⟩ := unpackFile_opens hbak n v
    have hleaves : Leaves (fun f : Effect => ∀ src dest, f = .cut_file src dest →
        v.found = true ∧ src = standPath dir e) (unpackFile dir prj module n e v) := by
      apply unpackFile_leaves
      · simp
      · intro hfound src dest heq
        cases heq
        exact ⟨hfound, standPath_again dir e⟩
      · simp
      · simp
      · simp
    obtain ⟨hfound, rfl⟩ := hleaves _ hcut src dest rfl
    exact ⟨n, e, v, file, h, hfound, rfl, hopened⟩

theorem unpack_moves (prj module : Bytes) (n : Nat) (archive : Archive) :
    Moves dir archive (unpack dir prj module n archive).trace := by
  induction archive generalizing n with
  | nil => exact Moves.of_leaves (Leaves.pure _)
  | cons ev archive ih =>
    obtain ⟨e, v⟩ := ev
    unfold unpack
    refine Moves.bind (unpackEntry_moves prj module n List.mem_cons_self) (fun rlt _ => ?_)
    cases rlt with
    | some rlt => exact Moves.of_leaves (Leaves.pure rlt)
    | none =>
      dsimp only
      split
      · exact (ih (n + 1)).tail
      · exact Moves.of_leaves (Leaves.pure _)

theorem outside_moves : Outside (fun f : Effect => ∀ src dest, f ≠ .cut_file src dest) where
  del_file := by simp
  save_cfg := by simp
  send_out := by simp

theorem onDownloadResult_moves (app_path : AppPath) (x : Script) (s : State) (r : DownloadResult)
    {mi : ModuleInfo} (h : s.find r.prj r.module = some mi) :
    Moves (workDir app_path mi) x.archive (onDownloadResult app_path x s r).trace := by
  unfold onDownloadResult
  split
  · exact Moves.of_leaves
      (Leaves.bind (reportResult_leaves outside_moves r) (fun _ _ => Leaves.pure _))
  rw [h]
  dsimp only
  split
  · exact Moves.of_leaves (Leaves.pure _)
  refine Moves.bind (Moves.of_leaves (Leaves.attempt _)) (fun dir hdir => ?_)
  have hdir : dir = workDir app_path mi := (sprintfPath_eq hdir).1
  subst hdir
  refine Moves.bind (unpack_moves r.prj r.module 0 x.archive) (fun uc_rlt _ => ?_)
  exact Moves.of_leaves (Leaves.bind (Leaves.emit (outside_moves.del_file _))
    (fun _ _ => restart_leaves outside_moves app_path x s (by simp) _))

theorem onDownloadResult_normal (app_path : AppPath) (x : Script) (s : State) (r : DownloadResult) :
    Leaves (fun f : Effect => ∀ src dest, f = .cut_file src dest →
      ∃ p q, src = toStandardlPath p [47] ∧ dest = toStandardlPath q [47])
        (onDownloadResult app_path x s r) := by
  apply onDownloadResult_leaves
  · exact ⟨by simp, by simp, by simp⟩
  intro mi _
  refine ⟨by simp, unpack_leaves (fun n ev _ => ?_) 0⟩
  apply unpackEntry_leaves
  · simp
  · intro _
    refine ⟨by simp, ?_, by simp, by simp, by simp⟩
    rintro src dest ⟨⟩
    exact ⟨_, _, rfl, rfl⟩

theorem calls_chmodCmd (env : Bytes → Bytes) {path : Bytes} (h : Bare path)
    (hhead : path.head? ≠ some 45) :
    ∃ operands, Calls env (chmodCmd path) (text "chmod") (text "+x") operands ∧
      ∀ o ∈ operands, o = path := by
  have hcmd : chmodCmd path = text "chmod" ++ 32 :: (text "+x" ++ 32 :: path) := by
    simp [chmodCmd, text]
  unfold Calls
  rw [hcmd, words_bare_cons (by decide) (by decide), words_bare_cons (by decide) (by decide)]
  by_cases hne : path = []
  · rw [hne]
    exact ⟨[], ⟨rfl, by simp⟩, by simp⟩
  · rw [words_bare h hne]
    exact ⟨[path], ⟨rfl, by simpa using hhead⟩, by simp⟩

/-! ## An archive with one file -/

/-- The file has one byte, it is found in the work directory, and all calls let it through. -/
def oneFile (name : Bytes) : Archive :=
  [(⟨name, 0, [1]⟩, ⟨0, true, true, 0, [1], fun _ => 1, 0, -100⟩)]

/-- What is done for the file: the directory of its backup is made, the file is moved there, and
it is opened. -/
theorem oneFile_trace {app_path : AppPath} {s : State} {r : DownloadResult} {mi : ModuleInfo}
    {name : Bytes} (hsuc : r.uc_rlt = enDrSuc) (hfind : s.find r.prj r.module = some mi)
    (hun : Unpacks app_path ⟨true, oneFile name, true⟩ mi r) :
    .create_dirs (pathName (bakPath (workDir app_path mi) r.prj r.module ⟨name, 0, [1]⟩)) ∈
        (onDownloadResult app_path ⟨true, oneFile name, true⟩ s r).trace ∧
      .cut_file (toStandardlPath (standPath (workDir app_path mi) ⟨name, 0, [1]⟩) [47])
          (toStandardlPath (bakPath (workDir app_path mi) r.prj r.module ⟨name, 0, [1]⟩) [47]) ∈
        (onDownloadResult app_path ⟨true, oneFile name, true⟩ s r).trace ∧
      .opened 0 (standPath (workDir app_path mi) ⟨name, 0, [1]⟩) (some [1]) ∈
        (onDownloadResult app_path ⟨true, oneFile name, true⟩ s r).trace := by
  obtain ⟨_, htrace⟩ := onDownloadResult_unpacks app_path _ s hsuc hfind hun
  obtain ⟨_, _, hfits⟩ := hun
  obtain ⟨_, hmarks⟩ := unpack_fits hfits 0
  obtain ⟨hpath, hfile⟩ := hfits _ List.mem_cons_self rfl
  obtain ⟨hbak, _⟩ := hfile (by simp [ZipEntry.isDir])
  rw [htrace]
  refine ⟨List.mem_append_left _ ?_, List.mem_append_left _ ?_, List.mem_append_left _ ?_⟩
  · simp [oneFile, unpack, unpackEntry, unpackFile, backUp, ZipEntry.isDir, sprintfPath_fits hpath,
      sprintfPath_fits hbak]
  · simp [oneFile, unpack, unpackEntry, unpackFile, backUp, ZipEntry.isDir, sprintfPath_fits hpath,
      sprintfPath_fits hbak]
  · have hopened : .opened 0 (standPath (workDir app_path mi) ⟨name, 0, [1]⟩) (some [1]) ∈
        marks (unpack (workDir app_path mi) r.prj r.module 0 (oneFile name)).trace := by
      rw [hmarks]
      simp [oneFile, marksOf, markOf, ZipEntry.isDir, unzipCurentFile, written, reads]
    exact (List.mem_filter.mp hopened).1

/-! ## The law -/

/-- A normalised path is its own normalisation, with either separator, so the command of `CutFile`
names just the path that it is given when this is normalised. Each file that a handling moves was
found under the path of an entry, and is opened for writing under the same path. And when `"`, `$`
and the backquote are in neither path, and neither begins like an option, the shell reads the
command as a move of just this file. -/
theorem a_normalised_path_stays_as_it_is :
    (∀ (os : System) (p : Bytes), toStandardlPath (toStandardlPath p os.split) os.split =
      toStandardlPath p os.split) ∧
    (∀ (os : System) (p dest : Bytes), cutFile os (toStandardlPath p os.split) dest =
      moveCmd os (toStandardlPath p os.split) (toStandardlPath dest os.split)) ∧
    ∀ (app_path : AppPath) (x : Script) (s : State) (r : DownloadResult) (src dest : Bytes),
      .cut_file src dest ∈ (onDownloadResult app_path x s r).trace →
        (∃ mi n e v file, s.find r.prj r.module = some mi ∧ (e, v) ∈ x.archive ∧ v.found = true ∧
          src = standPath (workDir app_path mi) e ∧
            .opened n src file ∈ (onDownloadResult app_path x s r).trace) ∧
        ∀ env : Bytes → Bytes, Quiet src → Quiet dest → src.head? ≠ some 45 → dest.head? ≠ some 45 →
          Calls env (moveCmd .linux src dest) (text "mv") (text "-f") [src, dest] := by
  have hagain : ∀ (os : System) (p : Bytes),
      toStandardlPath (toStandardlPath p os.split) os.split = toStandardlPath p os.split := by
    intro os p
    obtain ⟨b, hsplit, hb⟩ := isSep_split os
    rw [hsplit]
    exact toStandardlPath_again hb p
  refine ⟨hagain, fun os p dest => ?_, fun app_path x s r src dest hcut =>
    ⟨?_, fun env hsrc hdest hs hd => ⟨?_, ?_⟩⟩⟩
  · unfold cutFile
    rw [hagain]
  · cases hfind : s.find r.prj r.module with
    | none =>
      exfalso
      have hleaves : Leaves (fun f : Effect => ∀ src dest, f ≠ .cut_file src dest)
          (onDownloadResult app_path x s r) := by
        apply onDownloadResult_leaves outside_moves
        intro mi hmi
        rw [hfind] at hmi
        cases hmi
      exact hleaves _ hcut src dest rfl
    | some mi =>
      obtain ⟨n, e, v, file, hmem, hfound, hsrc, hopened⟩ :=
        onDownloadResult_moves app_path x s r hfind src dest hcut
      exact ⟨mi, n, e, v, file, rfl, hmem, hfound, hsrc, hopened⟩
  · obtain ⟨p, q, rfl, rfl⟩ := onDownloadResult_normal app_path x s r _ hcut src dest rfl
    exact words_moveCmd env (quotable_toStandardlPath hsrc) (quotable_toStandardlPath hdest)
  · intro o ho
    rcases List.mem_pair.mp ho with rfl | rfl
    · exact hs
    · exact hd

/-- The file "f" in the work directory "/w". -/
theorem a_plain_file_is_moved_as_it_is :
    .cut_file (text "/w/f") (text "/w/bak/p/m/f") ∈
        (onDownloadResult letterPath ⟨true, oneFile [102], true⟩ letterState
          (letterResult 0)).trace ∧
    Calls (fun _ => []) (moveCmd .linux (text "/w/f") (text "/w/bak/p/m/f")) (text "mv") (text "-f")
      [text "/w/f", text "/w/bak/p/m/f"] := by
  have hfind : letterState.find (letterResult 0).prj (letterResult 0).module = some letterModule :=
    find_letterState
  have hun : Unpacks letterPath ⟨true, oneFile [102], true⟩ letterModule (letterResult 0) :=
    ⟨rfl, by decide, by decide⟩
  have hcut := (oneFile_trace rfl hfind hun).2.1
  exact ⟨hcut,
    (a_normalised_path_stays_as_it_is.2.2 letterPath _ letterState (letterResult 0) _ _ hcut).2
      (fun _ => [])
    (by decide) (by decide) (by decide) (by decide)⟩

/-- For the file "a$b" of an archive, found in "/w", the command names "/w/a$b". Where the
parameter `b` is not set, the shell reads "/w/a". -/
theorem a_parameter_in_a_name_is_moved_by_its_value :
    .cut_file (text "/w/a$b") (text "/w/bak/p/m/a$b") ∈
        (onDownloadResult letterPath ⟨true, oneFile (text "a$b"), true⟩ letterState
          (letterResult 0)).trace ∧
    words (fun _ => []) (moveCmd .linux (text "/w/a$b") (text "/w/bak/p/m/a$b")) =
      some [text "mv", text "-f", text "/w/a", text "/w/bak/p/m/a"] := by
  have hfind : letterState.find (letterResult 0).prj (letterResult 0).module = some letterModule :=
    find_letterState
  have hun : Unpacks letterPath ⟨true, oneFile (text "a$b"), true⟩ letterModule (letterResult 0) :=
    ⟨rfl, by decide, by decide⟩
  exact ⟨(oneFile_trace rfl hfind hun).2.1, by decide⟩

end aods.update_module_mgr
