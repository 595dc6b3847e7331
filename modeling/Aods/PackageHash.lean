-- The hash of a package. `CalcFileCrc32_3` takes three checksums of a file while it reads
-- it, and splits the read that goes over the half; `Publish` slices the whole of it.
-- The law says that both give the same string, however the reads cut the file.
import Aods.AoFile
import Aods.AoHash

open machine
open crc util.ao_file util.ao_hash

/-! ## The source -/

namespace util.ao_file_control

def enErrorOpenFileFail : Nat := 0x3000

/-- The variables of the caller. -/
structure Crcs where
  un_crc1 : Nat
  un_crc2 : Nat
  un_crc3 : Nat
  un_file_len : Nat
  deriving DecidableEq, Repr

/-- A turn of the loop: the checksums and the bytes read so far, after a read. -/
def crcTurn (n_half_file_len : Int) (s : Crcs × Int) (data : Bytes) : Crcs × Int :=
  let (c, n_readed_len) := s
  let c := { c with un_crc3 := calcCrc32 c.un_crc3 data }
  let c :=
    if i32 (n_readed_len + data.length) < n_half_file_len then
      { c with un_crc1 := calcCrc32 c.un_crc1 data }
    else if n_readed_len ≥ n_half_file_len then
      { c with un_crc2 := calcCrc32 c.un_crc2 data }
    else
      let n := (n_half_file_len - n_readed_len).toNat
      { c with
        un_crc1 := calcCrc32 c.un_crc1 (data.take n)
        un_crc2 := calcCrc32 c.un_crc2 (data.drop n) }
  (c, i32 (n_readed_len + data.length))

/-- `CalcFileCrc32_3` of a file that opens or does not, and the sizes of its reads. -/
def calcFileCrc32_3 (af : Option Bytes) (sizes : List Nat) (c : Crcs) : Nat × Crcs :=
  match af with
  | none => (enErrorOpenFileFail, c)
  | some file =>
    let un_file_len := u32 file.length
    let n_half_file_len := i32 (un_file_len / 2 : Nat)
    (0, ((reads 10240 sizes file).foldl (crcTurn n_half_file_len) (⟨0, 0, 0, un_file_len⟩, 0)).1)

end util.ao_file_control

namespace publish

/-- `"%08x"`, in Python and in C. -/
def hex08 (n : Nat) : Bytes :=
  let digits := (Nat.toDigits 16 n).map (fun c => UInt8.ofNat c.toNat)
  List.replicate (8 - digits.length) 48 ++ digits

/-- `fileHash` in `Publish`. -/
def fileHash (data : Bytes) : Bytes :=
  let half := data.length / 2
  hex08 data.length ++ hex08 (crc32 (data.take half)) ++ hex08 (crc32 (data.drop half)) ++
    hex08 (crc32 data)

end publish

namespace aods.package_hash

open util.ao_file_control publish

/-- `szFileHash` in `CDownloadThread::Run`. -/
def hashOf (c : Crcs) : Bytes :=
  hex08 c.un_file_len ++ hex08 c.un_crc1 ++ hex08 c.un_crc2 ++ hex08 c.un_crc3

/-- The checksums over the part of a file that was read. -/
structure Over (half len : Nat) (c : Crcs) (part : Bytes) : Prop where
  crc1 : c.un_crc1 = crc32 (part.take half)
  crc2 : c.un_crc2 = crc32 (part.drop half)
  crc3 : c.un_crc3 = crc32 part
  file_len : c.un_file_len = len

/-! ## Reads -/

/-- A read goes on with each checksum from where it stands. -/
theorem Over.turn {half len : Nat} {c : Crcs} {part data : Bytes} (h : Over half len c part)
    (hlen : part.length + data.length < 2147483648) :
    Over half len (crcTurn half (c, part.length) data).1 (part ++ data) ∧
      (crcTurn half (c, part.length) data).2 = ((part ++ data).length : Nat) := by
  have hsum : i32 ((part.length : Int) + data.length) = ((part ++ data).length : Nat) := by
    rw [List.length_append, i32_of_range (by omega) (by omega)]
    omega
  have hcrc3 : calcCrc32 c.un_crc3 data = crc32 (part ++ data) := by
    rw [calcCrc32_eq, h.crc3, crc32_append]
  unfold crcTurn
  dsimp only
  rw [hsum]
  refine ⟨?_, rfl⟩
  rw [List.length_append]
  split
  · -- before the half
    rename_i hbefore
    have hcrc1 := h.crc1
    have hcrc2 := h.crc2
    rw [List.take_of_length_le (by omega)] at hcrc1
    rw [List.drop_of_length_le (by omega)] at hcrc2
    refine ⟨?_, ?_, hcrc3, h.file_len⟩
    · rw [List.take_of_length_le (by rw [List.length_append]; omega), crc32_append, ← hcrc1,
        calcCrc32_eq]
    · rw [List.drop_of_length_le (by rw [List.length_append]; omega)]
      exact hcrc2
  split
  · -- behind the half
    rename_i hbehind
    refine ⟨?_, ?_, hcrc3, h.file_len⟩
    · rw [List.take_append_of_le_length (by omega)]
      exact h.crc1
    · rw [List.drop_append_of_le_length (by omega), crc32_append, ← h.crc2, calcCrc32_eq]
  · -- over the half
    rename_i hbefore hbehind
    have htake : part.take half = part := List.take_of_length_le (by omega)
    have hdrop : part.drop half = [] := List.drop_of_length_le (by omega)
    have hcrc1 := h.crc1
    have hcrc2 := h.crc2
    rw [htake] at hcrc1
    rw [hdrop, crc32_nil] at hcrc2
    have hn : ((half : Int) - part.length).toNat = half - part.length := by omega
    rw [hn]
    refine ⟨?_, ?_, hcrc3, h.file_len⟩
    · rw [List.take_append, htake, crc32_append, ← hcrc1, ← calcCrc32_eq]
    · rw [List.drop_append, hdrop, List.nil_append, crc32, ← hcrc2, ← calcCrc32_eq]

theorem Over.turns {half len : Nat} {c : Crcs} {part : Bytes} (h : Over half len c part)
    (blocks : List Bytes) (hlen : (part ++ blocks.flatten).length < 2147483648) :
    Over half len (blocks.foldl (crcTurn half) (c, part.length)).1 (part ++ blocks.flatten) := by
  induction blocks generalizing c part with
  | nil =>
    rw [List.flatten_nil, List.append_nil]
    exact h
  | cons data blocks ih =>
    rw [List.flatten_cons, ← List.append_assoc] at hlen ⊢
    have hpart : part.length + data.length < 2147483648 := by
      simp only [List.length_append] at hlen
      omega
    obtain ⟨hover, hreaded⟩ := h.turn hpart
    rw [List.foldl_cons]
    have hstep : crcTurn half (c, part.length) data =
        ((crcTurn half (c, part.length) data).1, ((part ++ data).length : Int)) := by
      rw [← hreaded]
    rw [hstep]
    exact ih hover hlen

theorem calcFileCrc32_3_over {sizes : List Nat} {file : Bytes} (hsizes : Whole 10240 sizes file)
    (hlen : file.length < 2147483648) (c : Crcs) :
    Over (file.length / 2) file.length (calcFileCrc32_3 (some file) sizes c).2 file := by
  have hu32 : u32 (file.length : Int) = file.length := u32_of_lt (by omega)
  have hhalf : i32 ((file.length / 2 : Nat) : Int) = (file.length / 2 : Nat) :=
    i32_of_range (by omega) (by omega)
  have hstart : Over (file.length / 2) file.length ⟨0, 0, 0, file.length⟩ [] :=
    ⟨by simp, by simp, by simp, rfl⟩
  have hover := hstart.turns (reads 10240 sizes file) (by rw [hsizes.flatten]; exact hlen)
  rw [hsizes.flatten] at hover
  unfold calcFileCrc32_3
  dsimp only
  rw [hu32, hhalf]
  exact hover

theorem hashOf_whole {sizes : List Nat} {file : Bytes} (hsizes : Whole 10240 sizes file)
    (hlen : file.length < 2147483648) (c : Crcs) :
    hashOf (calcFileCrc32_3 (some file) sizes c).2 = fileHash file := by
  have hover := calcFileCrc32_3_over hsizes hlen c
  unfold hashOf fileHash
  rw [hover.crc1, hover.crc2, hover.crc3, hover.file_len]

/-! ## The law -/

/-- Of a file of fewer than 2^31 bytes, the client builds the hash string that the publisher
computes, whatever sizes up to 10240 its reads have and whatever stood in its variables. -/
theorem the_client_and_the_publisher_hash_a_package_alike (file : Bytes) (sizes : List Nat)
    (c : Crcs) (hsizes : ∀ n ∈ sizes, 0 < n ∧ n ≤ 10240) (hsum : sizes.sum = file.length)
    (hlen : file.length < 2147483648) :
    hashOf (calcFileCrc32_3 (some file) sizes c).2 = fileHash file :=
  hashOf_whole ⟨hsizes, hsum⟩ hlen c

/-- Five bytes, of which the second read goes over the half. -/
theorem the_hash_of_five_bytes :
    hashOf (calcFileCrc32_3 (some [1, 2, 3, 4, 5]) [1, 3, 1] ⟨7, 7, 7, 7⟩).2 =
      fileHash [1, 2, 3, 4, 5] :=
  the_client_and_the_publisher_hash_a_package_alike [1, 2, 3, 4, 5] [1, 3, 1]
    ⟨7, 7, 7, 7⟩ (by decide)
    (by decide) (by decide)

end aods.package_hash
