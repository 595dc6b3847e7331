-- `CAoEncrypt`, the table cipher. A table of 256 rows maps each byte in the
-- row of the key byte at its place; a second table maps it back. The laws say
-- that the two tables of every filled pair undo each other, whatever calls of
-- `SetSkDict` and `SetKey` came before.
import Aods.Machine
import Mathlib.Data.Fintype.EquivFin
import Mathlib.Data.List.Nodup

open machine

namespace util.encrypt

/-- The cipher: the encoding table, the decoding table and the 16 key bytes. -/
structure CAoEncrypt where
  en_sk_dict : Nat → UInt8
  de_sk_dict : Nat → UInt8
  key : Bytes

namespace CAoEncrypt

/-- One turn of the loop that fills both tables: cell `n` gets `f n`. -/
def fillStep (f : Nat → UInt8) (t : (Nat → UInt8) × (Nat → UInt8)) (n : Nat) :
    (Nat → UInt8) × (Nat → UInt8) :=
  (Function.update t.1 n (f n), Function.update t.2 ((n / 256) * 256 + (f n).toNat) (UInt8.ofNat n))

/-- The first `k` turns of the loop. -/
def fill (f : Nat → UInt8) (t : (Nat → UInt8) × (Nat → UInt8)) (k : Nat) :
    (Nat → UInt8) × (Nat → UInt8) := (List.range k).foldl (fillStep f) t

/-- The cipher after the first `k` turns. -/
def fillDicts (e : CAoEncrypt) (f : Nat → UInt8) (k : Nat) : CAoEncrypt :=
  let t := fill f (e.en_sk_dict, e.de_sk_dict) k
  { e with en_sk_dict := t.1, de_sk_dict := t.2 }

/-- `SetSkDict`: a table of another length is left aside. -/
def setSkDict (e : CAoEncrypt) (sk_dict : Bytes) (len : Int) : CAoEncrypt :=
  if len ≠ 65536 then e
  else e.fillDicts (fun n => sk_dict.getD n 0) 65536

/-- `SetKey`: a key of another length is left aside. -/
def setKey (e : CAoEncrypt) (key : Bytes) (len : Int) : CAoEncrypt :=
  if len ≠ 16 then e else { e with key := key.take 16 }

/-- The cipher before its constructor has run. The loop of `Default` writes every
cell, so what `malloc` left in the tables does not matter; here it left zeros. -/
def blank : CAoEncrypt where
  en_sk_dict := fun _ => 0
  de_sk_dict := fun _ => 0
  key := []

/-- `Default`, which the constructor calls. -/
def default : CAoEncrypt :=
  { blank with key := (List.range 16).map (fun n => UInt8.ofNat (0x35 + n)) }.fillDicts
    (fun n => UInt8.ofNat (n + 10)) 65536

/-- The cell of byte `b` in the row of key byte `k`. -/
def cell (k b : UInt8) : Nat := ((k.toNat <<< 8) &&& 0xFF00) + b.toNat

/-- The key byte at place `n` of a buffer. -/
def keyByte (e : CAoEncrypt) (n : Nat) : UInt8 := e.key.getD (n % 16) 0

def encode (e : CAoEncrypt) (buf : Bytes) : Bytes :=
  buf.mapIdx (fun n b => e.en_sk_dict (cell (e.keyByte n) b))

def decode (e : CAoEncrypt) (buf : Bytes) : Bytes :=
  buf.mapIdx (fun n b => e.de_sk_dict (cell (e.keyByte n) b))

@[simp] theorem length_encode (e : CAoEncrypt) (buf : Bytes) :
    (e.encode buf).length = buf.length := by simp [encode]

@[simp] theorem length_decode (e : CAoEncrypt) (buf : Bytes) :
    (e.decode buf).length = buf.length := by simp [decode]

/-! ## The two tables -/

/-- The decoding table takes back what the encoding table did, in every row. -/
def Paired (e : CAoEncrypt) : Prop := ∀ k b, e.de_sk_dict (cell k (e.en_sk_dict (cell k b))) = b

/-- No row of `f` gives a byte twice. -/
def RowsInjective (f : Nat → UInt8) : Prop :=
  ∀ r (a b : UInt8), f (r * 256 + a.toNat) = f (r * 256 + b.toNat) → a = b

theorem cell_eq (k b : UInt8) : cell k b = k.toNat * 256 + b.toNat := by
  -- the mask keeps a byte that has moved up by eight bits
  have hmask : (k.toNat <<< 8) &&& 0xFF00 = k.toNat * 256 := by
    have hk : k.toNat &&& 0xFF = k.toNat := by
      rw [show (0xFF : Nat) = 2 ^ 8 - 1 from rfl, Nat.and_two_pow_sub_one_eq_mod]
      exact Nat.mod_eq_of_lt k.toNat_lt
    rw [show (0xFF00 : Nat) = 0xFF <<< 8 from rfl, ← Nat.shiftLeft_and_distrib, hk,
      Nat.shiftLeft_eq]
  rw [cell, hmask]

theorem fill_succ (f : Nat → UInt8) (t : (Nat → UInt8) × (Nat → UInt8)) (k : Nat) :
    fill f t (k + 1) = fillStep f (fill f t k) k := by
  simp [fill, List.range_succ]

/-- The loop writes `f n` in cell `n` of the encoding table. -/
theorem fill_en (f : Nat → UInt8) (t : (Nat → UInt8) × (Nat → UInt8)) {k n : Nat} (h : n < k) :
    (fill f t k).1 n = f n := by
  induction k with
  | zero => omega
  | succ k ih =>
    rw [fill_succ, fillStep]
    dsimp only
    by_cases hn : n = k
    · subst hn
      rw [Function.update_self]
    · rw [Function.update_of_ne hn]
      exact ih (by omega)

/-- No later turn writes over the decoding cell of turn `n`. -/
theorem fill_de (f : Nat → UInt8) (t : (Nat → UInt8) × (Nat → UInt8)) (hf : RowsInjective f)
    {k n : Nat} (h : n < k) :
    (fill f t k).2 ((n / 256) * 256 + (f n).toNat) = UInt8.ofNat n := by
  induction k with
  | zero => omega
  | succ k ih =>
    rw [fill_succ, fillStep]
    dsimp only
    by_cases hn : n = k
    · subst hn
      rw [Function.update_self]
    · rw [Function.update_of_ne]
      · exact ih (by omega)
      · -- the same cell needs the same row and the same byte, so the same turn
        intro he
        have h1 := (f n).toNat_lt
        have h2 := (f k).toNat_lt
        have hrow : n / 256 = k / 256 := by omega
        have hbyte : f n = f k := UInt8.toNat_inj.mp (by omega)
        have hsplit : ∀ m, m = (m / 256) * 256 + (UInt8.ofNat (m % 256)).toNat := by
          intro m
          rw [UInt8.toNat_ofNat']
          omega
        rw [hsplit n, hsplit k, hrow] at hbyte
        have hb := congrArg UInt8.toNat (hf _ _ _ hbyte)
        simp only [UInt8.toNat_ofNat'] at hb
        omega

theorem cell_lt (k b : UInt8) : cell k b < 65536 := by
  have := k.toNat_lt
  have := b.toNat_lt
  rw [cell_eq]
  omega

/-- After the whole loop the second table takes the first one back. -/
theorem paired_fill (e : CAoEncrypt) {f : Nat → UInt8} {t : (Nat → UInt8) × (Nat → UInt8)} {k : Nat}
    (hk : 65536 ≤ k) (hf : RowsInjective f) (h1 : e.en_sk_dict = (fill f t k).1)
    (h2 : e.de_sk_dict = (fill f t k).2) : e.Paired := by
  intro a b
  have hcell : cell a b < k := by
    have := cell_lt a b
    omega
  have hb := b.toNat_lt
  have hrow : cell a b / 256 = a.toNat := by rw [cell_eq]; omega
  have hde := fill_de f t hf hcell
  rw [hrow, ← cell_eq] at hde
  rw [h1, fill_en f t hcell, h2, hde, cell_eq]
  apply UInt8.toNat_inj.mp
  rw [UInt8.toNat_ofNat']
  omega

theorem fillDicts_en (e : CAoEncrypt) (f : Nat → UInt8) (k : Nat) :
    (e.fillDicts f k).en_sk_dict = (fill f (e.en_sk_dict, e.de_sk_dict) k).1 := rfl

theorem fillDicts_de (e : CAoEncrypt) (f : Nat → UInt8) (k : Nat) :
    (e.fillDicts f k).de_sk_dict = (fill f (e.en_sk_dict, e.de_sk_dict) k).2 := rfl

theorem paired_fillDicts (e : CAoEncrypt) {f : Nat → UInt8} {k : Nat} (hk : 65536 ≤ k)
    (hf : RowsInjective f) : (e.fillDicts f k).Paired :=
  paired_fill _ hk hf (fillDicts_en e f k) (fillDicts_de e f k)

/-! ## The cipher -/

theorem decode_encode {e : CAoEncrypt} (h : e.Paired) (buf : Bytes) :
    e.decode (e.encode buf) = buf := by
  apply List.ext_getElem
  · simp
  · intro n h1 h2
    simp [decode, encode, keyByte, h _ _]

theorem rowsInjective_default : RowsInjective (fun n => UInt8.ofNat (n + 10)) := by
  intro r a b h
  have ha := a.toNat_lt
  have hb := b.toNat_lt
  have hn := congrArg UInt8.toNat h
  simp only [UInt8.toNat_ofNat'] at hn
  exact UInt8.toNat_inj.mp (by omega)

theorem paired_default : default.Paired := paired_fillDicts _ (Nat.le_refl _) rowsInjective_default

theorem default_en (k b : UInt8) : default.en_sk_dict (cell k b) = b + 10 := by
  rw [default, fillDicts_en, fill_en _ _ (cell_lt k b), cell_eq]
  apply UInt8.toNat_inj.mp
  rw [UInt8.toNat_ofNat', UInt8.toNat_add]
  simp only [UInt8.reduceToNat]
  omega

/-- Under the default table the key has no say in the cipher. -/
theorem encode_of_default {e : CAoEncrypt} (h : e.en_sk_dict = default.en_sk_dict) (buf : Bytes) :
    e.encode buf = buf.map (· + 10) := by
  apply List.ext_getElem
  · simp
  · intro n h1 h2
    simp [encode, h, default_en]

@[simp] theorem setKey_en (e : CAoEncrypt) (key : Bytes) (len : Int) :
    (e.setKey key len).en_sk_dict = e.en_sk_dict := by
  unfold setKey; split <;> rfl

@[simp] theorem setKey_de (e : CAoEncrypt) (key : Bytes) (len : Int) :
    (e.setKey key len).de_sk_dict = e.de_sk_dict := by
  unfold setKey; split <;> rfl

theorem setKey_congr {e e' : CAoEncrypt} (h1 : e.en_sk_dict = e'.en_sk_dict)
    (h2 : e.de_sk_dict = e'.de_sk_dict) (key : Bytes) : e.setKey key 16 = e'.setKey key 16 := by
  simp [setKey, h1, h2]

theorem paired_setKey {e : CAoEncrypt} (h : e.Paired) (key : Bytes) (len : Int) :
    (e.setKey key len).Paired :=
  fun k b => by simpa using h k b

/-! ## Tables from outside -/

theorem fill_congr {f g : Nat → UInt8} (t : (Nat → UInt8) × (Nat → UInt8)) {k : Nat}
    (h : ∀ n < k, f n = g n) : fill f t k = fill g t k := by
  induction k with
  | zero => rfl
  | succ k ih =>
    rw [fill_succ, fill_succ, ih (fun n hn => h n (by omega)), fillStep, fillStep, h k (by omega)]

/-- Every byte, in order. -/
def bytes : Bytes := (List.range 256).map UInt8.ofNat

/-- A table for `SetSkDict`: 256 rows, and each row holds every byte once. -/
structure RowsPermuted (sk_dict : Bytes) : Prop where
  length : sk_dict.length = 65536
  row : ∀ r < 256, ((sk_dict.drop (256 * r)).take 256).Perm bytes

theorem bytes_nodup : bytes.Nodup := by
  unfold bytes
  apply List.Nodup.map_on _ List.nodup_range
  intro a ha b hb h
  rw [List.mem_range] at ha hb
  have hn := congrArg UInt8.toNat h
  simp only [UInt8.toNat_ofNat'] at hn
  omega

/-- What `SetSkDict` writes: the table as far as it goes, and any bytes in order behind it. -/
def tableOf (sk_dict : Bytes) (n : Nat) : UInt8 :=
  if n < 65536 then sk_dict.getD n 0 else UInt8.ofNat n

theorem rowsInjective_tableOf {sk_dict : Bytes} (h : RowsPermuted sk_dict) :
    RowsInjective (tableOf sk_dict) := by
  intro r a b he
  have ha := a.toNat_lt
  have hb := b.toNat_lt
  unfold tableOf at he
  by_cases hr : r < 256
  · have hnodup := (h.row r hr).nodup_iff.mpr bytes_nodup
    have hlen : ((sk_dict.drop (256 * r)).take 256).length = 256 := by
      simp only [List.length_take, List.length_drop, h.length]
      omega
    have hcell : ∀ c : UInt8, ∃ hc : c.toNat < ((sk_dict.drop (256 * r)).take 256).length,
        sk_dict.getD (r * 256 + c.toNat) 0 = ((sk_dict.drop (256 * r)).take 256)[c.toNat] := by
      intro c
      have hc := c.toNat_lt
      have hin : r * 256 + c.toNat < sk_dict.length := by rw [h.length]; omega
      refine ⟨by rw [hlen]; exact hc, ?_⟩
      rw [List.getElem_take, List.getElem_drop, List.getD_eq_getElem?_getD,
        List.getElem?_eq_getElem hin, Option.getD_some]
      congr 1
      omega
    obtain ⟨hca, hrowa⟩ := hcell a
    obtain ⟨hcb, hrowb⟩ := hcell b
    rw [if_pos (by omega), if_pos (by omega), hrowa, hrowb] at he
    exact UInt8.toNat_inj.mp ((List.Nodup.getElem_inj_iff hnodup).mp he)
  · rw [if_neg (by omega), if_neg (by omega)] at he
    have hn := congrArg UInt8.toNat he
    simp only [UInt8.toNat_ofNat'] at hn
    exact UInt8.toNat_inj.mp (by omega)

theorem paired_setSkDict {e : CAoEncrypt} (he : e.Paired) (sk_dict : Bytes) (len : Int)
    (h : len = 65536 → RowsPermuted sk_dict) : (e.setSkDict sk_dict len).Paired := by
  unfold setSkDict
  split
  · exact he
  · rename_i hlen
    have hagree : ∀ n < 65536, sk_dict.getD n 0 = tableOf sk_dict n := by
      intro n hn
      rw [tableOf, if_pos hn]
    have hf := rowsInjective_tableOf (h (not_not.mp hlen))
    apply paired_fill _ (Nat.le_refl _) hf
    · rw [fillDicts_en, fill_congr _ hagree]
    · rw [fillDicts_de, fill_congr _ hagree]

/-- The ciphers that calls make of the default one. A table of the right length
has permutations for its rows; tables of other lengths and keys are as they like. -/
inductive Made : CAoEncrypt → Prop
  | default : Made default
  | setSkDict {e : CAoEncrypt} (sk_dict : Bytes) (len : Int) :
      Made e → (len = 65536 → RowsPermuted sk_dict) → Made (e.setSkDict sk_dict len)
  | setKey {e : CAoEncrypt} (key : Bytes) (len : Int) : Made e → Made (e.setKey key len)

theorem Made.paired {e : CAoEncrypt} (h : Made e) : e.Paired := by
  induction h with
  | default => exact paired_default
  | setSkDict sk_dict len _ hrows ih => exact paired_setSkDict ih sk_dict len hrows
  | setKey key len _ ih => exact paired_setKey ih key len

/-- A row with 256 places that gives no byte twice gives every byte, so the
encoding table takes back what the decoding table did as well. -/
theorem Paired.back {e : CAoEncrypt} (h : e.Paired) (k b : UInt8) :
    e.en_sk_dict (cell k (e.de_sk_dict (cell k b))) = b := by
  have : Finite UInt8 := Finite.of_injective UInt8.toFin (fun a b h => UInt8.toFin_inj.mp h)
  have hleft : Function.LeftInverse (fun b => e.de_sk_dict (cell k b))
      (fun b => e.en_sk_dict (cell k b)) := h k
  have hsurj := Finite.surjective_of_injective hleft.injective
  exact hleft.rightInverse_of_surjective hsurj b

theorem encode_decode {e : CAoEncrypt} (h : e.Paired) (buf : Bytes) :
    e.encode (e.decode buf) = buf := by
  apply List.ext_getElem
  · simp
  · intro n h1 h2
    simp [decode, encode, keyByte, h.back]

theorem made_undoes {e : CAoEncrypt} (h : Made e) (buf : Bytes) :
    e.decode (e.encode buf) = buf ∧ e.encode (e.decode buf) = buf :=
  ⟨decode_encode h.paired buf, encode_decode h.paired buf⟩

/-- A table whose rows leave every byte as it is. -/
def plain : Bytes := (List.range 65536).map UInt8.ofNat

theorem rowsPermuted_plain : RowsPermuted plain where
  length := by simp [plain]
  row r hr := by
    have hrow : (plain.drop (256 * r)).take 256 = bytes := by
      apply List.ext_getElem
      · simp only [plain, bytes, List.length_take, List.length_drop, List.length_map,
          List.length_range]
        omega
      · intro n h1 h2
        simp only [plain, bytes, List.getElem_take, List.getElem_drop, List.getElem_map,
          List.getElem_range]
        apply UInt8.toNat_inj.mp
        simp only [UInt8.toNat_ofNat']
        omega
    rw [hrow]

/-- Calls that `SetSkDict` and `SetKey` reject stand between the others here. -/
theorem made_undoes_plain :
    let e := (((default.setSkDict plain 65536).setSkDict [1, 2] 2).setKey [7] 1).setKey
      (List.replicate 16 9) 16
    e.decode (e.encode [1, 2, 255]) = [1, 2, 255] ∧ e.encode (e.decode [1, 2, 255]) = [1, 2, 255] :=
  made_undoes
    (.setKey _ _ (.setKey _ _
      (.setSkDict [1, 2] 2 (.setSkDict plain 65536 .default (fun _ => rowsPermuted_plain))
        (fun h => absurd h (by decide))))) _


end CAoEncrypt

end util.encrypt
