-- `CDownloadThread` of aods: it fetches the packages of its tasks one after another,
-- decrypts and checks each, and posts what came of it. The files, and the length that the
-- check takes of a file, stay from one task to the next.
import Aods.Encrypt
import Aods.PackageHash
import Aods.Runs
import Aods.UpdateModuleMgr

open machine
open util.ao_file util.encrypt util.ao_file_control msg_def
open aods.package_hash aods.update_module_mgr

namespace aods.download_thread

def enDrSuc : UInt8 := 0
def enDrDfa : UInt8 := 1
def enDrSfa : UInt8 := 2
def enDrCfa : UInt8 := 3

/-- What the calls in `DecryptFile` do: which files open, the sizes of the reads, how much the
writes save, and the bytes that lie behind the password. -/
structure Decryption where
  dst_opens : Bool
  src_opens : Bool
  sizes : List Nat
  saved : Nat → Nat
  behind : Bytes

/-- `DecryptFile`: the destination after it. -/
def decryptFile (x : Decryption) (src dst : Option Bytes) (pwd : Bytes) : Option Bytes :=
  if ¬ x.dst_opens then dst
  else
    match src with
    | none => some []
    | some src =>
      if ¬ x.src_opens then some []
      else
        let n_buf_cap := pwd.length * 200
        -- the key is 16 bytes, whatever the length of the password
        let ae := CAoEncrypt.default.setKey (pwd ++ 0 :: x.behind) 16
        some (written x.saved ((reads n_buf_cap x.sizes src).map ae.decode))

/-! ## Tasks -/

/-- What happens in a try: whether the temporary file opens, what `HttpRun` leaves in it and
whether it succeeds, the decryption, and the check. The check reads the whole of a file that
it opens. -/
structure Try where
  temp_opens : Bool
  received : Bytes
  http_runs : Bool
  decryption : Decryption
  check_opens : Bool
  check_sizes : Bytes → List Nat
  save_deleted : Bool
  whole : ∀ file, Whole 10240 (check_sizes file) file

/-- The files by their names, and what `Run` keeps in its variables. -/
structure State where
  files : Bytes → Option Bytes
  un_file_len : Nat
  uc_rlt : UInt8

/-- The state when a thread starts. -/
def State.start (files : Bytes → Option Bytes) : State := ⟨files, 0, 0⟩

def State.write (s : State) (name : Bytes) (file : Option Bytes) : State :=
  { s with files := Function.update s.files name file }

/-- `strTempFile`. -/
def tempFile (di : DownloadItem) : Bytes := di.str_save_file_name ++ util.json.text ".temp"

/-- The saved file, after `DecryptFile`. -/
def saved (x : Try) (di : DownloadItem) (s : State) : Option Bytes :=
  decryptFile x.decryption (s.files (tempFile di)) (s.files di.str_save_file_name) di.str_pwd

/-- The variables of the check, over the saved file where it opens. -/
def crcsOf (x : Try) (di : DownloadItem) (s : State) : Crcs :=
  let file := if x.check_opens then saved x di s else none
  (calcFileCrc32_3 file (x.check_sizes (file.getD [])) ⟨0, 0, 0, s.un_file_len⟩).2

/-- The part of a try behind the download: decryption and check. -/
def check (x : Try) (di : DownloadItem) (s : State) : State :=
  let sz_file_hash := hashOf (crcsOf x di s)
  let kept :=
    { s.write di.str_save_file_name (saved x di s) with un_file_len := (crcsOf x di s).un_file_len }
  if sz_file_hash = cstr di.str_file_hash then { kept with uc_rlt := enDrSuc }
  else if x.save_deleted then { kept.write di.str_save_file_name none with uc_rlt := enDrCfa }
  else { kept with uc_rlt := enDrCfa }

/-- The loop over the tries of a task. -/
def tries (di : DownloadItem) : List Try → State → State
  | [], s => s
  | x :: xs, s =>
    if ¬ x.temp_opens then tries di xs { s with uc_rlt := enDrSfa }
    else
      let s := s.write (tempFile di) (some x.received)
      if ¬ x.http_runs then tries di xs { s with uc_rlt := enDrDfa }
      else check x di s

/-- The texts of a result. -/
def resultTexts (di : DownloadItem) : List Bytes :=
  [di.str_prj, di.str_module, di.str_file_ver, di.str_file_hash, di.str_url,
    di.str_save_file_name, di.str_pwd]

/-- A `DOWNLOAD_RESULT`, which is made in an array of 5120. -/
def downloadResult (uc_rlt : UInt8) (di : DownloadItem) : Except Fault Bytes :=
  if (uc_rlt :: names (resultTexts di)).length > 5120 then .error .overrun
  else .ok (uc_rlt :: names (resultTexts di))

/-- A task with its three tries, or a change of the files by others. -/
inductive Event where
  | task (di : DownloadItem) (three : { xs : List Try // xs.length = 3 }) (temp_deleted : Bool)
  | files (files : Bytes → Option Bytes)

/-- A turn of the loop of `Run`, with the message that it posts. -/
def handle : runs.Handler State Event Bytes Fault
  | s, .task di three temp_deleted => do
    let s := tries di three.1 s
    let s := if temp_deleted then s.write (tempFile di) none else s
    let uc_result ← downloadResult s.uc_rlt di
    .ok (s, [uc_result])
  | s, .files files => .ok ({ s with files }, [])

end aods.download_thread
