-- `OnDownloadResult` of `CUpdateModuleMgr`: a package that was downloaded is unpacked over the
-- files of its module, which go to a backup, the module is started again, and aodc is
-- told. What the calls of minizip and of the file system give is a script; the effects
-- stay in a trace.
import Aods.AoFile
import Aods.DownloadThread
import Aods.FileControl
import Aods.Traced

open machine std_map traced
open util.ao_file util.ao_file_control util.helper util.json msg_def
open aods.download_thread (enDrSuc)

namespace aods.update_module_mgr

def enDrUfa : UInt8 := 4
def enDrRfa : UInt8 := 5
def enFileAttributeDir : Nat := 0x10

/-! ## Archives -/

/-- An entry of an archive. -/
structure ZipEntry where
  name : Bytes
  external_fa : Nat
  data : Bytes

/-- What the calls at an entry give: the results of `unzGetCurrentFileInfo64`,
`unzOpenCurrentFile`, `unzCloseCurrentFile` and `unzGoToNextFile`, how many bytes each
`unzReadCurrentFile` can give before one ends the reading, whether the target is found and
opens, and how many bytes each write saves. -/
structure Visit where
  info : Int
  found : Bool
  opens : Bool
  open_current : Int
  sizes : List Nat
  saved : Nat → Nat
  close_current : Int
  next : Int

abbrev Archive := List (ZipEntry × Visit)

/-- What goes out of a handling. What is done for an entry of the archive has its number.
`cut_file` is the command of `CutFile` with its two paths, as it is given to the shell. -/
inductive Effect where
  | made_dirs (entry : Nat) (path : Bytes)
  | create_dirs (path : Bytes)
  | cut_file (src dest : Bytes)
  | opened (entry : Nat) (path : Bytes) (file : Option Bytes)
  | ran_cmd (cmd : Bytes)
  | del_file (path : Bytes)
  | save_cfg (s : State)
  | send_out (data : Bytes)

def ZipEntry.isDir (e : ZipEntry) : Bool := e.external_fa &&& enFileAttributeDir ≠ 0

/-- `UnzipCurentFile`: its result, and what the file gets. The last result of a read is lost. -/
def unzipCurentFile (e : ZipEntry) (v : Visit) : Int × Bytes :=
  if v.open_current ≠ 0 then (v.open_current, [])
  else (v.close_current, written v.saved (reads 10240 v.sizes e.data))

/-! ## One entry -/

/-- The extension of a file: from its last dot on, when no slash follows. -/
def fileExt (path : Bytes) : Option Bytes :=
  let last := ((path.drop 1).reverse.takeWhile (fun b => b ≠ 46 && b ≠ 47)).reverse
  match (path.drop 1).reverse.dropWhile (fun b => b ≠ 46 && b ≠ 47) with
  | 46 :: _ => some (46 :: last)
  | _ => none

/-- The files that get the right to be run. -/
def executable (path : Bytes) : Bool :=
  match fileExt path with
  | none => true
  | some ext => ext = text ".so" || ext = text ".lib" || ext = text ".exe" || ext = text ".sh"

/-- `szFile`. -/
def filePath (dir : Bytes) (e : ZipEntry) : Bytes := dir ++ 47 :: cstr e.name

/-- `szBakFile`. -/
def bakPath (dir prj module : Bytes) (e : ZipEntry) : Bytes :=
  dir ++ 47 :: (text "bak" ++ 47 :: (prj ++ 47 :: (module ++ 47 :: cstr e.name)))

/-- `szStandFile`. The normalised path is not longer than its source. -/
def standPath (dir : Bytes) (e : ZipEntry) : Bytes := toStandardlPath (filePath dir e) [47]

def chmodCmd (path : Bytes) : Bytes := text "chmod +x " ++ path

/-- The command that gives a file the right to be run. -/
def makeExecutable (path : Bytes) : Traced Effect Fault Unit :=
  if executable path then do
    let cmd ← attempt (sprintfPath (chmodCmd path))
    emit (.ran_cmd cmd)
  else pure ()

/-- `CutFile`, where the file is found: its command names both paths normalised. -/
def backUp (v : Visit) (stand bak : Bytes) : Traced Effect Fault Unit :=
  if v.found then emit (.cut_file (toStandardlPath stand [47]) (toStandardlPath bak [47]))
  else pure ()

/-- A file of the archive. `some`: the loop breaks with this result. -/
def unpackFile (dir prj module : Bytes) (n : Nat) (e : ZipEntry) (v : Visit) :
    Traced Effect Fault (Option UInt8) := do
  let stand := standPath dir e
  let bak ← attempt (sprintfPath (bakPath dir prj module e))
  emit (.create_dirs (pathName bak))
  backUp v stand bak
  emit (.create_dirs (pathName stand))
  if ¬ v.opens then do
    emit (.opened n stand none)
    pure (some enDrUfa)
  else do
    emit (.opened n stand (some (unzipCurentFile e v).2))
    if (unzipCurentFile e v).1 ≠ 0 then pure (some enDrUfa)
    else do
      makeExecutable stand
      pure none

/-- A turn of the loop, down to its condition. -/
def unpackEntry (dir prj module : Bytes) (n : Nat) (e : ZipEntry) (v : Visit) :
    Traced Effect Fault (Option UInt8) :=
  -- a break, which leaves the result as it is
  if v.info ≠ 0 then pure (some enDrSuc)
  else do
    let _ ← attempt (sprintfPath (filePath dir e))
    if e.isDir then do
      emit (.made_dirs n (standPath dir e))
      pure none
    else unpackFile dir prj module n e v

/-- The loop over the archive. Its result is `ucRlt`. -/
def unpack (dir prj module : Bytes) : Nat → Archive → Traced Effect Fault UInt8
  | _, [] => pure enDrSuc
  | n, (e, v) :: archive => do
    let rlt ← unpackEntry dir prj module n e v
    match rlt with
    | some rlt => pure rlt
    | none => if v.next = 0 then unpack dir prj module (n + 1) archive else pure enDrSuc

/-! ## A result -/

/-- What happens behind the message: whether the archive opens, its entries, and whether the
command of the module succeeds. -/
structure Script where
  zip_opens : Bool
  archive : Archive
  cmd_runs : Bool

/-- `DOWNLOAD_RESULT`. -/
structure DownloadResult where
  uc_rlt : UInt8
  sz_buf : Bytes

def DownloadResult.prj (r : DownloadResult) : Bytes := cstr r.sz_buf
def DownloadResult.module (r : DownloadResult) : Bytes := cstr (pastCstr r.sz_buf)
def DownloadResult.fileVer (r : DownloadResult) : Bytes := cstr (pastCstr (pastCstr r.sz_buf))
def DownloadResult.hash (r : DownloadResult) : Bytes :=
  cstr (pastCstr (pastCstr (pastCstr r.sz_buf)))
def DownloadResult.saveFile (r : DownloadResult) : Bytes :=
  cstr (pastCstr (pastCstr (pastCstr (pastCstr (pastCstr r.sz_buf)))))

/-- `szDir`: a relative work directory lies in the directory of the program. -/
def workDir (app_path : AppPath) (mi : ModuleInfo) : Bytes :=
  if mi.str_wd.head? = some 47 then mi.str_wd else app_path.1 ++ 47 :: mi.str_wd

/-- The state with a new version and hash of a module. -/
def State.record (s : State) (r : DownloadResult) : State :=
  match s.map_pm.lookup r.prj with
  | none => s
  | some mm =>
    match mm.lookup r.module with
    | none => s
    | some mi =>
      let mm := mm.insert r.module { mi with str_fh := r.hash, str_fv := r.fileVer }
      { s with map_pm := s.map_pm.insert r.prj mm }

/-- The file of `SaveCfg`. -/
def cfgPath (app_path : AppPath) : Bytes := app_path.1 ++ text "/data/aodsumi.db"

def saveCfg (app_path : AppPath) (s : State) : Traced Effect Fault Unit := do
  let _ ← attempt (sprintfPath (cfgPath app_path))
  emit (.save_cfg s)

/-- The report of a result. -/
def reportResult (r : DownloadResult) : Traced Effect Fault Unit := do
  let data ← attempt (report2Aodc enAodsAodcUdr (r.uc_rlt :: r.sz_buf))
  emit (.send_out data)

/-- The project of aods itself. -/
def isSelf (r : DownloadResult) : Bool := r.prj = text "aods" && strstr r.module (text "aods-")

/-- The end of `OnDownloadResult`. -/
def settle (app_path : AppPath) (s : State) (r : DownloadResult) :
    Traced Effect Fault (State × UInt8) :=
  if r.uc_rlt = enDrSuc ∨ r.uc_rlt = enDrRfa then do
    saveCfg app_path (s.record r)
    reportResult r
    pure (s.record r, r.uc_rlt)
  else do
    reportResult r
    pure (s, r.uc_rlt)

/-- What `RunCmd` of the command of a module gives for a result. -/
def ranCmd (x : Script) : UInt8 := if x.cmd_runs then enDrSuc else enDrRfa

/-- The part of `OnDownloadResult` behind the archive. -/
def restart (app_path : AppPath) (x : Script) (s : State) (mi : ModuleInfo) (r : DownloadResult) :
    Traced Effect Fault (State × UInt8) :=
  if mi.str_cmd ≠ [] ∧ r.uc_rlt = enDrSuc then
    if isSelf r then do
      -- the report goes out before the command ends this process
      saveCfg app_path (s.record r)
      reportResult r
      emit (.ran_cmd mi.str_cmd)
      pure (s.record r, ranCmd x)
    else do
      emit (.ran_cmd mi.str_cmd)
      settle app_path s { r with uc_rlt := ranCmd x }
  else settle app_path s r

def onDownloadResult (app_path : AppPath) (x : Script) (s : State) (r : DownloadResult) :
    Traced Effect Fault (State × UInt8) :=
  if r.uc_rlt ≠ enDrSuc then do
    reportResult r
    pure (s, r.uc_rlt)
  else
    match s.find r.prj r.module with
    | none => pure (s, r.uc_rlt)
    | some mi =>
      if ¬ x.zip_opens then pure (s, r.uc_rlt)
      else do
        let dir ← attempt (sprintfPath (workDir app_path mi))
        let uc_rlt ← unpack dir r.prj r.module 0 x.archive
        emit (.del_file r.saveFile)
        restart app_path x s mi { r with uc_rlt }

end aods.update_module_mgr
