-- The cipher of packages. `Publish` encrypts a whole file under a key of 16 characters, and
-- `DecryptFile` decodes it read by read, each from the first byte of the key. The law says
-- that it gives the file back, since a read that is not the last is a multiple of the key.
import Aods.DownloadThread
import Mathlib.Data.List.GetD
import Mathlib.Data.List.OfFn

open machine
open util.ao_file util.encrypt util.json

/-! ## The source -/

namespace publish

/-- The characters of a key. -/
def kv : Bytes :=
  text "0123456789ABCDEFGHIJKLMNOPQRSTUabcdefghijklmnopqrstuvwxyzVWXYZ0123456789fghijklmnopqrstuvwx"

/-- `__generalSk`, with the places that the random numbers choose. -/
def generalSk (rd : Fin 16 → Fin kv.length) : Bytes := List.ofFn (fun i => kv.get (rd i))

/-- `__generalDict`. -/
def generalDict : Bytes := (List.range 65536).map (fun i => UInt8.ofNat ((i + 10) % 256))

/-- What `Publish` writes of a file. -/
def encryptData (sk data : Bytes) : Bytes :=
  data.mapIdx (fun n b => generalDict.getD
    (((((sk.getD (n % sk.length) 0).toNat <<< 8) &&& 0xFF00) ||| (b.toNat &&& 0xFF)) &&& 0xFFFF) 0)

end publish

namespace aods.package_cipher

open publish aods.download_thread

/-! ## The publisher -/

theorem length_generalSk (rd : Fin 16 → Fin kv.length) : (generalSk rd).length = 16 :=
  List.length_ofFn

theorem generalDict_getD {i : Nat} (h : i < 65536) :
    generalDict.getD i 0 = UInt8.ofNat (i + 10) := by
  unfold generalDict
  rw [List.getD_eq_getElem _ _ (by simpa using h), List.getElem_map, List.getElem_range]
  apply UInt8.toNat_inj.mp
  rw [UInt8.toNat_ofNat', UInt8.toNat_ofNat']
  omega

/-- The publisher takes the same cell for a byte as the cipher. -/
theorem index_eq_cell (k b : UInt8) :
    (((k.toNat <<< 8) &&& 0xFF00) ||| (b.toNat &&& 0xFF)) &&& 0xFFFF = CAoEncrypt.cell k b := by
  have hk := k.toNat_lt
  have hb := b.toNat_lt
  have hrow : (k.toNat <<< 8) &&& 0xFF00 = 2 ^ 8 * k.toNat := by
    have hcell := CAoEncrypt.cell_eq k b
    unfold CAoEncrypt.cell at hcell
    omega
  have hlow : b.toNat &&& 0xFF = b.toNat := by
    rw [show (0xFF : Nat) = 2 ^ 8 - 1 from rfl, Nat.and_two_pow_sub_one_eq_mod]
    exact Nat.mod_eq_of_lt hb
  have hmask : ∀ n < 65536, n &&& 0xFFFF = n := by
    intro n hn
    rw [show (0xFFFF : Nat) = 2 ^ 16 - 1 from rfl, Nat.and_two_pow_sub_one_eq_mod]
    exact Nat.mod_eq_of_lt hn
  rw [hrow, hlow, ← Nat.two_pow_add_eq_or_of_lt hb, hmask _ (by omega), CAoEncrypt.cell_eq]
  omega

theorem encryptData_eq {sk : Bytes} (hsk : sk.length = 16) (t data : Bytes) :
    encryptData sk data = (CAoEncrypt.default.setKey (sk ++ t) 16).encode data := by
  unfold encryptData CAoEncrypt.encode
  apply List.mapIdx_eq_mapIdx_iff.mpr
  intro n hn
  have hkey : (CAoEncrypt.default.setKey (sk ++ t) 16).keyByte n = sk.getD (n % sk.length) 0 := by
    have htake : (sk ++ t).take 16 = sk := by
      rw [← hsk]
      exact List.take_left
    unfold CAoEncrypt.keyByte CAoEncrypt.setKey
    rw [if_neg (by simp), htake, hsk]
  rw [index_eq_cell, generalDict_getD (CAoEncrypt.cell_lt _ _), hkey, CAoEncrypt.setKey_en,
    CAoEncrypt.default_en, CAoEncrypt.cell_eq]
  apply UInt8.toNat_inj.mp
  rw [UInt8.toNat_ofNat', UInt8.toNat_add]
  simp only [UInt8.reduceToNat]
  omega

/-! ## The client -/

/-- A part that is a multiple of the key leaves the key at its first byte. -/
theorem decode_append (e : CAoEncrypt) {a : Bytes} (h : 16 ∣ a.length) (b : Bytes) :
    e.decode (a ++ b) = e.decode a ++ e.decode b := by
  unfold CAoEncrypt.decode
  rw [List.mapIdx_append]
  congr 1
  apply List.mapIdx_eq_mapIdx_iff.mpr
  intro n hn
  have hkey : e.keyByte (n + a.length) = e.keyByte n := by
    obtain ⟨q, hq⟩ := h
    unfold CAoEncrypt.keyByte
    rw [hq, Nat.add_mul_mod_self_left]
  rw [hkey]

/-- Reads that fill blocks of a multiple of the key are decoded like the whole file. -/
theorem decode_reads (e : CAoEncrypt) {cap : Nat} (hcap : 0 < cap) (hkey : 16 ∣ cap) :
    ∀ (k : Nat) {sizes : List Nat} {file : Bytes}, file.length ≤ k → Filling cap sizes file →
      ((reads cap sizes file).map e.decode).flatten = e.decode file := by
  intro k
  induction k with
  | zero =>
    intro sizes file hk _
    have hnil : file = [] := List.eq_nil_of_length_eq_zero (Nat.le_zero.mp hk)
    rw [hnil, reads_nil]
    rfl
  | succ k ih =>
    intro sizes file hk hfill
    by_cases hne : file = []
    · rw [hne, reads_nil]
      rfl
    · obtain ⟨sizes', hreads, hrest⟩ := hfill.cons hcap hne
      have hpos := List.length_pos_iff.mpr hne
      rw [hreads, List.map_cons, List.flatten_cons, ih (by rw [List.length_drop]; omega) hrest]
      rcases Nat.le_total cap file.length with hle | hle
      · have hblock : (file.take cap).length = cap := by
          rw [List.length_take]
          omega
        rw [← decode_append e (by rw [hblock]; exact hkey), List.take_append_drop]
      · rw [List.take_of_length_le hle, List.drop_of_length_le hle]
        exact List.append_nil _

/-! ## The law -/

/-- Where both files open, the reads fill their blocks and the writes save theirs, `DecryptFile`
gives back the file that was published, under every key that the publisher can choose. -/
theorem decrypting_undoes_publishing (data : Bytes) (rd : Fin 16 → Fin kv.length) (x : Decryption)
    (dst : Option Bytes) (hdst : x.dst_opens = true) (hsrc : x.src_opens = true)
    (hreads : Filling (16 * 200) x.sizes (encryptData (generalSk rd) data))
    (hwrites : ∀ n, 16 * 200 ≤ x.saved n) :
    decryptFile x (some (encryptData (generalSk rd) data)) dst (generalSk rd) = some data := by
  have hlen := length_generalSk rd
  unfold decryptFile
  simp only [hdst, hsrc, not_true_eq_false, if_false, hlen]
  rw [written_full]
  · rw [decode_reads _ (by decide) (by decide) _ (Nat.le_refl _) hreads, encryptData_eq hlen]
    exact congrArg
      some (CAoEncrypt.decode_encode (CAoEncrypt.paired_setKey CAoEncrypt.paired_default _ _) data)
  · intro n block hblock
    obtain ⟨b, hb, rfl⟩ := List.mem_map.mp hblock
    rw [CAoEncrypt.length_decode]
    exact Nat.le_trans (reads_length hb).2 (hwrites n)

/-- A file of one byte, under the key of sixteen zeros. -/
theorem one_byte_is_decrypted :
    decryptFile ⟨true, true, [3200], fun _ => 3200, []⟩
      (some (encryptData (generalSk (fun _ => ⟨0, by decide⟩)) [7])) none
      (generalSk (fun _ => ⟨0, by decide⟩)) = some [7] :=
  decrypting_undoes_publishing [7] (fun _ => ⟨0, by decide⟩)
    ⟨true, true, [3200], fun _ => 3200, []⟩ none rfl
    rfl ⟨by decide, by simp [encryptData]⟩ (fun _ => Nat.le_refl _)

end aods.package_cipher
