-- `CAoMemStream` and `CAoFile`, the two streams behind the interface of `CAoStream`, with the
-- same operations in the same order. The law says after which operations they still cannot
-- be told apart: those that move neither of them.
import Aods.Machine

open machine

namespace util.ao_stream

/-! ## The source -/

def enNoerror : Int := 0
def enErrorInvalidPara : Int := 1

/-- The third parameter of `Seek`. -/
inductive AoSeek where
  | en_seek_set
  | en_seek_cur
  | en_seek_end
  | other
  deriving DecidableEq, Repr

/-- What a call gives back: its value, and the bytes that `Read` copies. -/
structure Out where
  value : Int
  bytes : Bytes
  deriving DecidableEq, Repr

/-- Bytes laid over others from a place on. -/
def overlay (buf : Bytes) (pos : Nat) (data : Bytes) : Bytes :=
  buf.take pos ++ data ++ buf.drop (pos + data.length)

structure CAoMemStream where
  ast_pos : Int
  ast_len : Int
  buf : Bytes
  deriving DecidableEq, Repr

namespace CAoMemStream

/-- `Open`, where the copy is served. -/
def openBuf (buf : Bytes) : CAoMemStream := ⟨0, buf.length, buf⟩

/-- `tPos` of `Seek`. -/
def target (m : CAoMemStream) (ast_offset : Int32) : AoSeek → Option Int
  | .en_seek_set => some ast_offset.toInt
  | .en_seek_cur => some (i32 (m.ast_pos + ast_offset.toInt))
  | .en_seek_end => some (i32 (m.ast_len + ast_offset.toInt))
  | .other => none

def seek (m : CAoMemStream) (ast_offset : Int32) (ast_seek : AoSeek) : Out × CAoMemStream :=
  match m.target ast_offset ast_seek with
  | none => (⟨enErrorInvalidPara, []⟩, m)
  | some t_pos =>
    -- the length gets the new position
    if t_pos ≥ 0 ∧ t_pos < m.ast_len then (⟨enNoerror, []⟩, { m with ast_len := t_pos })
    else (⟨enErrorInvalidPara, []⟩, m)

def tell (m : CAoMemStream) : Out := ⟨m.ast_pos, []⟩

/-- `astReadLen` and `astWriteLen`. -/
def room (m : CAoMemStream) (ast_len : Nat) : Int :=
  if m.ast_len - m.ast_pos < ast_len then m.ast_len - m.ast_pos else ast_len

def read (m : CAoMemStream) (ast_len : Nat) : Out :=
  ⟨m.room ast_len, if m.room ast_len > 0 then (m.buf.drop m.ast_pos.toNat).take
    (m.room ast_len).toNat else []⟩

def write (m : CAoMemStream) (data : Bytes) : Out × CAoMemStream :=
  (⟨m.room data.length, []⟩,
    if m.room data.length > 0 then
      { m with buf := overlay m.buf m.ast_pos.toNat (data.take (m.room data.length).toNat) }
    else m)

end CAoMemStream

/-- An open file: its bytes, and the position of its stream. -/
structure CAoFile where
  file : Bytes
  pos : Nat
  deriving DecidableEq, Repr

namespace CAoFile

def openFile (file : Bytes) : CAoFile := ⟨file, 0⟩

/-- Where `fseek` goes from a position in a file of `len` bytes. -/
def target (len pos : Nat) (ast_offset : Int32) : AoSeek → Option Int
  | .en_seek_set => some ast_offset.toInt
  | .en_seek_cur => some (pos + ast_offset.toInt)
  | .en_seek_end => some (len + ast_offset.toInt)
  | .other => none

/-- `Seek`: `fseek` refuses a place before the file, and no other. -/
def seek (f : CAoFile) (ast_offset : Int32) (ast_seek : AoSeek) : Out × CAoFile :=
  match target f.file.length f.pos ast_offset ast_seek with
  | none => (⟨enErrorInvalidPara, []⟩, f)
  | some t =>
    if t < 0 then (⟨enErrorInvalidPara, []⟩, f) else (⟨enNoerror, []⟩, { f with pos := t.toNat })

def tell (f : CAoFile) : Out := ⟨i32 f.pos, []⟩

/-- `fread` gives what is left of the file, and goes on behind it. -/
def read (f : CAoFile) (ast_len : Nat) : Out × CAoFile :=
  let bytes := (f.file.drop f.pos).take ast_len
  (⟨bytes.length, bytes⟩, { f with pos := f.pos + bytes.length })

/-- `fwrite`: a gap before the place is filled with zeros. -/
def write (f : CAoFile) (data : Bytes) : Out × CAoFile :=
  (⟨data.length, []⟩,
    if data = [] then f
    else ⟨overlay (f.file ++ List.replicate (f.pos - f.file.length) 0) f.pos data,
      f.pos + data.length⟩)

end CAoFile

/-! ## The same operations -/

inductive Op where
  | seek (ast_offset : Int32) (ast_seek : AoSeek)
  | tell
  | read (ast_len : Nat)
  | write (data : Bytes)

def CAoMemStream.step (m : CAoMemStream) : Op → Out × CAoMemStream
  | .seek ast_offset ast_seek => m.seek ast_offset ast_seek
  | .tell => (m.tell, m)
  | .read ast_len => (m.read ast_len, m)
  | .write data => m.write data

def CAoFile.step (f : CAoFile) : Op → Out × CAoFile
  | .seek ast_offset ast_seek => f.seek ast_offset ast_seek
  | .tell => (f.tell, f)
  | .read ast_len => f.read ast_len
  | .write data => f.write data

/-- A seek or a write that goes past the end of the file. -/
def CAoFile.past (f : CAoFile) : Op → Bool
  | .seek ast_offset ast_seek =>
    (target f.file.length f.pos ast_offset ast_seek).any (fun t : Int => decide (f.file.length < t))
  | .write data => decide (f.file.length < f.pos + data.length)
  | _ => false

/-- What a refused operation gives back. -/
def refusal : Op → Out
  | .seek _ _ => ⟨enErrorInvalidPara, []⟩
  | _ => ⟨0, []⟩

/-- The streams give the same values and the same bytes, and hold the same bytes, all the way. What
goes past the end is refused by the memory stream, which stays as it is, and is not done to the
file. -/
def Alike : CAoMemStream → CAoFile → List Op → Prop
  | m, f, [] => m.buf = f.file
  | m, f, op :: ops => m.buf = f.file ∧
    if f.past op then m.step op = (refusal op, m) ∧ Alike m f ops
    else (m.step op).1 = (f.step op).1 ∧ Alike (m.step op).2 (f.step op).2 ops

instance decidableAlike : (m : CAoMemStream) → (f : CAoFile) → (ops : List Op) →
    Decidable (Alike m f ops)
  | m, f, [] => inferInstanceAs (Decidable (m.buf = f.file))
  | m, f, op :: ops =>
    have := decidableAlike m f ops
    have := decidableAlike (m.step op).2 (f.step op).2 ops
    inferInstanceAs
      (Decidable (_ ∧ if f.past op then _ ∧ Alike m f ops else _ ∧
        Alike (m.step op).2 (f.step op).2 ops))

/-! ## Operations that move nothing -/

/-- At the start of `len` bytes the operation moves no byte and no position. -/
def Still (len : Nat) : Op → Prop
  | .seek ast_offset ast_seek =>
    ∀ t, CAoFile.target len 0 ast_offset ast_seek = some t → t < 0 ∨ len < t
  | .tell => True
  | .read ast_len => ast_len = 0 ∨ len = 0
  | .write data => data = [] ∨ len = 0

/-- A seek is not to the end itself, and a write is not past it. -/
def Plain (len : Nat) : Op → Prop
  | .seek ast_offset ast_seek => ∀ t, CAoFile.target len 0 ast_offset ast_seek = some t → t ≠ len
  | .write data => data.length ≤ len ∨ len = 0
  | _ => True

variable {buf : Bytes} {op : Op} {ops : List Op} {m : CAoMemStream} {f : CAoFile}

/-! ## One operation -/

theorem alike_past (hpast : f.past op = true) :
    Alike m f (op :: ops) ↔ m.buf = f.file ∧ m.step op = (refusal op, m) ∧ Alike m f ops := by
  rw [Alike, if_pos hpast]

theorem alike_within (hpast : f.past op = false) :
    Alike m f (op :: ops) ↔
      m.buf = f.file ∧ (m.step op).1 = (f.step op).1 ∧ Alike (m.step op).2 (f.step op).2 ops := by
  rw [Alike, hpast, if_neg Bool.false_ne_true]

theorem target_start (hlen : buf.length < 2147483648) (ast_offset : Int32) (ast_seek : AoSeek) :
    (CAoFile.target buf.length 0 ast_offset ast_seek = none ∧
      (CAoMemStream.openBuf buf).target ast_offset ast_seek = none) ∨
    ∃ t t', CAoFile.target buf.length 0 ast_offset ast_seek = some t ∧
      (CAoMemStream.openBuf buf).target ast_offset ast_seek = some t' ∧
        (0 ≤ t ∧ t ≤ buf.length → t' = t) ∧
      (t < 0 ∨ buf.length < t → t' < 0 ∨ buf.length ≤ t') := by
  have hlow := ast_offset.le_toInt
  have hhigh := ast_offset.toInt_lt
  unfold CAoFile.target CAoMemStream.target CAoMemStream.openBuf
  cases ast_seek with
  | en_seek_set => exact Or.inr ⟨_, _, rfl, rfl, fun _ => rfl, by omega⟩
  | en_seek_cur =>
    refine Or.inr ⟨_, _, rfl, rfl, fun h => ?_, fun h => ?_⟩
    · dsimp only
      rw [i32_of_range (by omega) (by omega)]
      rfl
    · dsimp only
      rw [i32_of_range (by omega) (by omega)]
      omega
  | en_seek_end =>
    refine Or.inr ⟨_, _, rfl, rfl, fun h => ?_, fun h => ?_⟩
    · dsimp only
      rw [i32_of_range (by omega) (by omega)]
    · dsimp only at h ⊢
      unfold i32 u32
      omega
  | other => exact Or.inl ⟨rfl, rfl⟩

theorem seek_start (hlen : buf.length < 2147483648) (ast_offset : Int32) (ast_seek : AoSeek) :
    (Still buf.length (.seek ast_offset ast_seek) ∧
      (CAoMemStream.openBuf buf).seek ast_offset ast_seek =
        (⟨enErrorInvalidPara, []⟩, .openBuf buf) ∧
      ((CAoFile.openFile buf).past (.seek ast_offset ast_seek) = false →
        (CAoFile.openFile buf).seek ast_offset ast_seek =
          (⟨enErrorInvalidPara, []⟩, .openFile buf))) ∨
    ∃ t : Nat, CAoFile.target buf.length 0 ast_offset ast_seek = some (t : Int) ∧ t ≤ buf.length ∧
      (CAoMemStream.openBuf buf).target ast_offset ast_seek = some (t : Int) := by
  rcases target_start hlen ast_offset ast_seek with ⟨hfile, hmem⟩ | ⟨t, t', hfile, hmem, hin, hout⟩
  · left
    refine ⟨fun t ht => ?_, ?_, fun _ => ?_⟩
    · rw [hfile] at ht
      cases ht
    · unfold CAoMemStream.seek
      rw [hmem]
    · unfold CAoFile.seek CAoFile.openFile
      dsimp only
      rw [hfile]
  · by_cases hrange : 0 ≤ t ∧ t ≤ buf.length
    · right
      obtain ⟨n, rfl⟩ := Int.eq_ofNat_of_zero_le hrange.1
      refine ⟨n, hfile, by omega, ?_⟩
      rw [hmem, hin hrange]
    · left
      have houtside : t < 0 ∨ buf.length < t := by omega
      have hmemOut := hout houtside
      refine ⟨fun t₀ ht => ?_, ?_, fun hpast => ?_⟩
      · rw [hfile] at ht
        cases ht
        exact houtside
      · unfold CAoMemStream.seek
        rw [hmem]
        dsimp only
        rw [if_neg]
        unfold CAoMemStream.openBuf
        dsimp only
        omega
      · have hneg : t < 0 := by
          unfold CAoFile.past CAoFile.openFile at hpast
          dsimp only at hpast
          rw [hfile] at hpast
          simp only [Option.any_some, decide_eq_false_iff_not] at hpast
          omega
        unfold CAoFile.seek CAoFile.openFile
        dsimp only
        rw [hfile]
        dsimp only
        rw [if_pos hneg]

theorem room_start (buf : Bytes) (n : Nat) :
    (CAoMemStream.openBuf buf).room n = (min buf.length n : Nat) := by
  unfold CAoMemStream.room CAoMemStream.openBuf
  dsimp only
  split
  · omega
  · omega

theorem read_start (buf : Bytes) (n : Nat) :
    (CAoMemStream.openBuf buf).read n = ((CAoFile.openFile buf).read n).1 := by
  have hroom := room_start buf n
  have htake : buf.take (min buf.length n) = buf.take n := by
    rcases Nat.le_total buf.length n with hle | hle
    · rw [Nat.min_eq_left hle, List.take_length, List.take_of_length_le hle]
    · rw [Nat.min_eq_right hle]
  unfold CAoMemStream.read CAoFile.read
  dsimp only
  rw [hroom]
  unfold CAoMemStream.openBuf CAoFile.openFile
  dsimp only
  rw [Int.toNat_zero, List.drop_zero, Out.mk.injEq]
  constructor
  · rw [List.length_take, Nat.min_comm]
  · split
    · exact htake
    · rename_i hzero
      have hzero : min buf.length n = 0 := by omega
      rw [← htake, hzero, List.take_zero]

theorem write_start {data : Bytes} (h : data.length ≤ buf.length) :
    (CAoMemStream.openBuf buf).write data =
      (⟨data.length, []⟩, ⟨0, buf.length, overlay buf 0 data⟩) ∧
      (CAoFile.openFile buf).write data =
        (⟨data.length, []⟩, ⟨overlay buf 0 data, data.length⟩) := by
  have hroom := room_start buf data.length
  rw [Nat.min_eq_right h] at hroom
  by_cases hnil : data = []
  · subst hnil
    unfold CAoMemStream.write CAoFile.write
    rw [hroom, if_neg (by simp), if_pos rfl]
    simp [CAoMemStream.openBuf, CAoFile.openFile, overlay]
  · have hpos : 0 < data.length := List.length_pos_iff.mpr hnil
    unfold CAoMemStream.write CAoFile.write
    rw [hroom, if_pos (by omega), if_neg hnil]
    simp [CAoMemStream.openBuf, CAoFile.openFile]

/-- What moves nothing is done alike, and leaves both streams at their starts. -/
theorem alike_cons_still (hlen : buf.length < 2147483648) (h : Still buf.length op) :
    Alike (.openBuf buf) (.openFile buf) (op :: ops) ↔
      Alike (.openBuf buf) (.openFile buf) ops := by
  have hbuf : (CAoMemStream.openBuf buf).buf = (CAoFile.openFile buf).file := rfl
  -- the two ways to be done alike
  have hrefused : (CAoMemStream.openBuf buf).step op = (refusal op, .openBuf buf) →
      (CAoFile.openFile buf).past op = true →
      (Alike (.openBuf buf) (.openFile buf) (op :: ops) ↔
          Alike (.openBuf buf) (.openFile buf) ops) := by
    intro hstep hpast
    rw [alike_past hpast]
    exact ⟨fun h => h.2.2, fun h => ⟨hbuf, hstep, h⟩⟩
  have hsame : ∀ o, (CAoMemStream.openBuf buf).step op = (o, .openBuf buf) →
      (CAoFile.openFile buf).past op = false → (CAoFile.openFile buf).step op = (o, .openFile buf) →
      (Alike (.openBuf buf) (.openFile buf) (op :: ops) ↔
          Alike (.openBuf buf) (.openFile buf) ops) := by
    intro o hmem hpast hfile
    rw [alike_within hpast, hmem, hfile]
    exact ⟨fun h => h.2.2, fun h => ⟨hbuf, rfl, h⟩⟩
  cases op with
  | seek ast_offset ast_seek =>
    rcases seek_start hlen ast_offset ast_seek with ⟨_, hmem, hfile⟩ | ⟨t, ht, hle, _⟩
    · cases hpast : (CAoFile.openFile buf).past (.seek ast_offset ast_seek) with
      | true => exact hrefused hmem hpast
      | false => exact hsame _ hmem hpast (hfile hpast)
    · have hout := h t ht
      omega
  | tell =>
    have hzero : i32 ((0 : Nat) : Int) = 0 := by decide
    exact hsame ⟨0, []⟩ rfl rfl (by rw [CAoFile.step, CAoFile.tell, CAoFile.openFile, hzero])
  | read n =>
    have hnone : buf.take n = [] := by
      rcases h with rfl | hnil
      · rfl
      · rw [List.eq_nil_of_length_eq_zero hnil, List.take_nil]
    have hfile : (CAoFile.openFile buf).read n = (⟨0, []⟩, .openFile buf) := by
      simp [CAoFile.read, CAoFile.openFile, hnone]
    refine hsame ⟨0, []⟩ ?_ rfl hfile
    rw [CAoMemStream.step, read_start, hfile]
  | write data =>
    by_cases hnil : data = []
    · subst hnil
      obtain ⟨hmem, hfile⟩ := @write_start buf [] (Nat.zero_le _)
      have hpast : (CAoFile.openFile buf).past (.write []) = false := by
        simp [CAoFile.past, CAoFile.openFile]
      have hover : overlay buf 0 [] = buf := by simp [overlay]
      rw [hover] at hmem hfile
      exact hsame _ hmem hpast hfile
    · have hempty : buf = [] := List.eq_nil_of_length_eq_zero (h.resolve_left hnil)
      subst hempty
      have hpos : 0 < data.length := List.length_pos_iff.mpr hnil
      apply hrefused
      · simp [CAoMemStream.step, CAoMemStream.write, room_start, refusal]
      · simp [CAoFile.past, CAoFile.openFile, hpos]

/-! ## Streams that were moved -/

/-- One of the streams is not where it was: the file is behind its start, or the memory stream is
shorter. -/
structure Moved (m : CAoMemStream) (f : CAoFile) : Prop where
  at_start : m.ast_pos = 0
  in_file : f.pos ≤ f.file.length
  in_buf : m.ast_len ≤ f.file.length
  apart : 0 < f.pos ∨ m.ast_len < f.file.length

theorem CAoMemStream.seek_cases (m : CAoMemStream) (ast_offset : Int32) (ast_seek : AoSeek) :
    m.seek ast_offset ast_seek = (⟨enErrorInvalidPara, []⟩, m) ∨
      ∃ t, t < m.ast_len ∧
        m.seek ast_offset ast_seek = (⟨enNoerror, []⟩, { m with ast_len := t }) := by
  unfold CAoMemStream.seek
  split
  · exact Or.inl rfl
  · rename_i t _
    split
    · rename_i hin
      exact Or.inr ⟨t, hin.2, rfl⟩
    · exact Or.inl rfl

theorem CAoFile.seek_cases (f : CAoFile) (ast_offset : Int32) (ast_seek : AoSeek) :
    f.seek ast_offset ast_seek = (⟨enErrorInvalidPara, []⟩, f) ∨
      ∃ t : Nat, CAoFile.target f.file.length f.pos ast_offset ast_seek = some (t : Int) ∧
        f.seek ast_offset ast_seek = (⟨enNoerror, []⟩, { f with pos := t }) := by
  unfold CAoFile.seek
  split
  · exact Or.inl rfl
  · rename_i t ht
    split
    · exact Or.inl rfl
    · rename_i hneg
      have hnat : t = (t.toNat : Int) := by omega
      exact Or.inr ⟨t.toNat, ht.trans (congrArg some hnat), rfl⟩

/-- A seek that both accept makes the memory stream shorter. -/
theorem Moved.seek {m : CAoMemStream} {f : CAoFile} (h : Moved m f) {ast_offset : Int32}
    {ast_seek : AoSeek} (hpast : f.past (.seek ast_offset ast_seek) = false)
    (hout : (m.seek ast_offset ast_seek).1 = (f.seek ast_offset ast_seek).1) :
    Moved (m.seek ast_offset ast_seek).2 (f.seek ast_offset ast_seek).2 ∧
      (f.seek ast_offset ast_seek).2.file = f.file := by
  rcases m.seek_cases ast_offset ast_seek with hmem | ⟨t', hlt, hmem⟩
  · rcases f.seek_cases ast_offset ast_seek with hfile | ⟨t, _, hfile⟩
    · rw [hmem, hfile]
      exact ⟨h, rfl⟩
    · rw [hmem, hfile] at hout
      cases hout
  · rcases f.seek_cases ast_offset ast_seek with hfile | ⟨t, ht, hfile⟩
    · rw [hmem, hfile] at hout
      cases hout
    · have hle : t ≤ f.file.length := by
        rw [CAoFile.past, ht] at hpast
        simpa using hpast
      have hbuf := h.in_buf
      rw [hmem, hfile]
      refine ⟨⟨h.at_start, hle, ?_, Or.inr ?_⟩, rfl⟩
      · dsimp only
        omega
      · dsimp only
        omega

theorem length_overlay {buf data : Bytes} {pos : Nat} (h : pos + data.length ≤ buf.length) :
    (overlay buf pos data).length = buf.length := by
  unfold overlay
  rw [List.length_append, List.length_append, List.length_take, List.length_drop]
  omega

theorem CAoMemStream.write_keeps (m : CAoMemStream) (data : Bytes) :
    (m.write data).2.ast_pos = m.ast_pos ∧ (m.write data).2.ast_len = m.ast_len := by
  unfold CAoMemStream.write
  dsimp only
  split
  · exact ⟨rfl, rfl⟩
  · exact ⟨rfl, rfl⟩

theorem CAoFile.write_within {f : CAoFile} {data : Bytes}
    (h : f.pos + data.length ≤ f.file.length) :
    (f.write data).2.file.length = f.file.length ∧ (f.write data).2.pos = f.pos + data.length := by
  unfold CAoFile.write
  dsimp only
  split
  · rename_i hnil
    rw [hnil]
    exact ⟨rfl, rfl⟩
  · have hgap : f.pos - f.file.length = 0 := by omega
    dsimp only
    rw [hgap, List.replicate_zero, List.append_nil]
    exact ⟨length_overlay h, rfl⟩

/-- An operation that both do leaves the streams moved, and the file as long as it was. -/
theorem Moved.both (h : Moved m f) (hpast : f.past op = false)
    (hout : (m.step op).1 = (f.step op).1) :
    Moved (m.step op).2 (f.step op).2 ∧ (f.step op).2.file.length = f.file.length := by
  have hfile := h.in_file
  cases op with
  | seek ast_offset ast_seek =>
    obtain ⟨hmoved, hsame⟩ := h.seek hpast hout
    exact ⟨hmoved, congrArg List.length hsame⟩
  | tell => exact ⟨h, rfl⟩
  | read n =>
    have hread : ((f.file.drop f.pos).take n).length ≤ f.file.length - f.pos := by
      rw [List.length_take, List.length_drop]
      omega
    refine ⟨⟨h.at_start, ?_, h.in_buf, ?_⟩, rfl⟩
    · simp only [CAoFile.step, CAoFile.read]
      omega
    · rcases h.apart with hpos | hlen
      · exact Or.inl (Nat.lt_of_lt_of_le hpos (Nat.le_add_right _ _))
      · exact Or.inr hlen
  | write data =>
    have hwithin : f.pos + data.length ≤ f.file.length := by
      rw [CAoFile.past] at hpast
      simpa using hpast
    obtain ⟨hlength, hend⟩ := CAoFile.write_within hwithin
    obtain ⟨hpos, hlen⟩ := m.write_keeps data
    refine ⟨⟨hpos.trans h.at_start, ?_, ?_, ?_⟩, hlength⟩
    · exact hlength.symm ▸ hend.symm ▸ hwithin
    · exact hlength.symm ▸ hlen.symm ▸ h.in_buf
    · exact hlength.symm ▸ hlen.symm ▸ hend.symm ▸
        h.apart.imp_left (fun hpos => Nat.lt_of_lt_of_le hpos (Nat.le_add_right _ _))

/-- What is done alike by streams that were moved leaves them moved. -/
theorem Moved.step (h : Moved m f) (halike : Alike m f (op :: ops)) :
    ∃ m' f', Moved m' f' ∧ f'.file.length = f.file.length ∧ ∀ ops, Alike m f (op :: ops) →
      Alike m' f' ops := by
  cases hpast : f.past op with
  | true => exact ⟨m, f, h, rfl, fun ops hops => ((alike_past hpast).mp hops).2.2⟩
  | false =>
    obtain ⟨hmoved, hsame⟩ := h.both hpast ((alike_within hpast).mp halike).2.1
    exact ⟨_, _, hmoved, hsame, fun ops hops => ((alike_within hpast).mp hops).2.2⟩

/-- Streams that were moved are told apart by one call of `Tell` or `Read` more. -/
theorem Moved.told_apart {m : CAoMemStream} {f : CAoFile} (h : Moved m f)
    (hlen : f.file.length < 2147483648) (htell : Alike m f (ops ++ [.tell]))
    (hread : Alike m f (ops ++ [.read f.file.length])) : False := by
  induction ops generalizing m f with
  | nil =>
    have hfile := h.in_file
    have hvalue : m.ast_pos = i32 f.pos := congrArg Out.value htell.2.1
    rw [h.at_start, i32_of_range (by omega) (by omega)] at hvalue
    have hzero : f.pos = 0 := by omega
    rcases h.apart with hpos | hshort
    · omega
    · have hcount : m.room f.file.length = ((f.file.drop f.pos).take f.file.length).length :=
        congrArg Out.value hread.2.1
      rw [hzero, List.drop_zero, List.take_length] at hcount
      have hstart := h.at_start
      unfold CAoMemStream.room at hcount
      split at hcount
      · omega
      · omega
  | cons op ops ih =>
    obtain ⟨m', f', hmoved, hsame, hnext⟩ := h.step htell
    exact ih hmoved (hsame ▸ hlen) (hnext _ htell) (hsame ▸ hnext _ hread)

/-- A seek into the file at the start of both streams. The memory stream refuses the end itself. -/
theorem seek_inside {ast_offset : Int32} {ast_seek : AoSeek} {t : Nat}
    (ht : CAoFile.target buf.length 0 ast_offset ast_seek = some (t : Int)) (hle : t ≤ buf.length)
    (htarget : (CAoMemStream.openBuf buf).target ast_offset ast_seek = some (t : Int)) :
    (CAoFile.openFile buf).past (.seek ast_offset ast_seek) = false ∧
      (CAoFile.openFile buf).seek ast_offset ast_seek = (⟨enNoerror, []⟩, ⟨buf, t⟩) ∧
      (CAoMemStream.openBuf buf).seek ast_offset ast_seek =
        if t = buf.length then (⟨enErrorInvalidPara, []⟩, .openBuf buf)
        else (⟨enNoerror, []⟩, ⟨0, t, buf⟩) := by
  refine ⟨?_, ?_, ?_⟩
  · rw [CAoFile.past, CAoFile.openFile]
    dsimp only
    rw [ht]
    simpa using hle
  · unfold CAoFile.seek CAoFile.openFile
    dsimp only
    rw [ht]
    rfl
  · unfold CAoMemStream.seek
    rw [htarget]
    unfold CAoMemStream.openBuf
    dsimp only
    split
    · rw [if_neg (by omega)]
    · rw [if_pos (by omega)]

/-- An operation that is done alike at the start, and that still cannot be told from none, moves
nothing. -/
theorem still_of_alike (hlen : buf.length < 2147483648)
    (htell : Alike (.openBuf buf) (.openFile buf) (op :: (ops ++ [.tell])))
    (hread : Alike (.openBuf buf) (.openFile buf) (op :: (ops ++ [.read buf.length]))) :
    Still buf.length op := by
  -- what is done alike and leaves the streams moved is told from nothing
  have hmoved : ∀ m f, Moved m f → f.file.length = buf.length →
      (CAoFile.openFile buf).past op = false →
      (CAoMemStream.openBuf buf).step op = (((CAoMemStream.openBuf buf).step op).1, m) →
      (CAoFile.openFile buf).step op = (((CAoFile.openFile buf).step op).1, f) → False := by
    intro m f h hfile hpast hm hf
    rw [alike_within hpast, hm, hf] at htell hread
    exact h.told_apart (hfile ▸ hlen) htell.2.2 (hfile.symm ▸ hread.2.2)
  cases op with
  | seek ast_offset ast_seek =>
    rcases seek_start hlen ast_offset ast_seek with ⟨hstill, _⟩ | ⟨t, ht, hle, htarget⟩
    · exact hstill
    · exfalso
      obtain ⟨hpast, hfile, hmem⟩ := seek_inside ht hle htarget
      by_cases hend : t = buf.length
      · -- the end itself is refused by the memory stream alone
        rw [if_pos hend] at hmem
        rw [alike_within hpast, CAoMemStream.step, CAoFile.step, hmem, hfile] at htell
        exact absurd htell.2.1 (by simp [enErrorInvalidPara, enNoerror])
      · rw [if_neg hend] at hmem
        refine hmoved ⟨0, t, buf⟩ ⟨buf, t⟩ ⟨rfl, hle, ?_, Or.inr ?_⟩ rfl hpast ?_ ?_
        · dsimp only
          omega
        · dsimp only
          omega
        · rw [CAoMemStream.step, hmem]
        · rw [CAoFile.step, hfile]
  | tell => trivial
  | read n =>
    by_contra hstill
    obtain ⟨hn, hbuf⟩ := not_or.mp hstill
    have hcount : 0 < (buf.take n).length := by
      rw [List.length_take]
      omega
    have hle : (buf.take n).length ≤ buf.length := List.length_take_le' n buf
    refine hmoved (.openBuf buf) ⟨buf, (buf.take n).length⟩ ⟨rfl, hle, ?_, Or.inl hcount⟩
      rfl rfl rfl ?_
    · exact Int.le_refl _
    · simp [CAoFile.step, CAoFile.read, CAoFile.openFile]
  | write data =>
    by_contra hstill
    obtain ⟨hdata, hbuf⟩ := not_or.mp hstill
    have hpos : 0 < data.length := List.length_pos_iff.mpr hdata
    cases hpast : (CAoFile.openFile buf).past (.write data) with
    | false =>
      have hle : data.length ≤ buf.length := by
        rw [CAoFile.past, CAoFile.openFile] at hpast
        simpa using hpast
      obtain ⟨hmem, hfile⟩ := write_start hle
      have hsame : (overlay buf 0 data).length = buf.length := length_overlay (by omega)
      refine hmoved ⟨0, buf.length, overlay buf 0 data⟩ ⟨overlay buf 0 data, data.length⟩
        ⟨rfl, ?_, ?_, Or.inl hpos⟩
        hsame hpast ?_ ?_
      · exact hsame.symm ▸ hle
      · dsimp only
        omega
      · rw [CAoMemStream.step, hmem]
      · rw [CAoFile.step, hfile]
    | true =>
      -- a write past the end is not refused, but cut
      rw [alike_past hpast] at htell
      have hvalue : (CAoMemStream.openBuf buf).room data.length = 0 :=
        congrArg (fun r => Out.value r.1) htell.2.1
      rw [room_start] at hvalue
      omega

/-- A plain operation at the start is done alike. -/
theorem alike_plain (hlen : buf.length < 2147483648) (h : Plain buf.length op) :
    Alike (.openBuf buf) (.openFile buf) [op] := by
  have hstart : Alike (.openBuf buf) (.openFile buf) [] := rfl
  by_cases hstill : Still buf.length op
  · exact (alike_cons_still hlen hstill).mpr hstart
  · cases op with
    | seek ast_offset ast_seek =>
      rcases seek_start hlen ast_offset ast_seek with ⟨hs, _⟩ | ⟨t, ht, hle, htarget⟩
      · exact absurd hs hstill
      · obtain ⟨hpast, hfile, hmem⟩ := seek_inside ht hle htarget
        have hend : t ≠ buf.length := fun he => h t ht (by rw [he])
        rw [if_neg hend] at hmem
        rw [alike_within hpast, CAoMemStream.step, CAoFile.step, hmem, hfile]
        exact ⟨rfl, rfl, rfl⟩
    | tell => exact absurd trivial hstill
    | read n => exact ⟨rfl, read_start buf n, rfl⟩
    | write data =>
      have hle : data.length ≤ buf.length := h.resolve_right (fun hnil => hstill (Or.inr hnil))
      obtain ⟨hmem, hfile⟩ := write_start hle
      have hpast : (CAoFile.openFile buf).past (.write data) = false := by
        rw [CAoFile.past, CAoFile.openFile]
        simpa using hle
      rw [alike_within hpast, CAoMemStream.step, CAoFile.step, hmem, hfile]
      exact ⟨rfl, rfl, rfl⟩

theorem alike_stills (hlen : buf.length < 2147483648) {more : List Op}
    (h : ∀ op ∈ ops, Still buf.length op) :
    Alike (.openBuf buf) (.openFile buf) (ops ++ more) ↔
      Alike (.openBuf buf) (.openFile buf) more := by
  induction ops with
  | nil => exact Iff.rfl
  | cons op ops ih =>
    rw [List.cons_append, alike_cons_still hlen (h op List.mem_cons_self)]
    exact ih (fun o ho => h o (List.mem_cons_of_mem op ho))

/-! ## The law -/

/-- Operations that move nothing are done alike by a memory stream and a file with the same bytes,
and so is any one operation behind them but a seek to the end itself and a write past it. Behind any
other operations one `Tell` or one `Read` more tells the streams apart, if they were not told apart
before. -/
theorem the_streams_stay_alike_just_while_nothing_moves (buf : Bytes)
    (hlen : buf.length < 2147483648) :
    (∀ ops last, (∀ op ∈ ops, Still buf.length op) → Plain buf.length last →
      Alike (.openBuf buf) (.openFile buf) (ops ++ [last])) ∧
    ∀ ops, (∀ op ∈ ops, Still buf.length op) ↔
      Alike (.openBuf buf) (.openFile buf) (ops ++ [.tell]) ∧
        Alike (.openBuf buf) (.openFile buf) (ops ++ [.read buf.length]) := by
  refine ⟨fun ops last hstill hplain => (alike_stills hlen hstill).mpr (alike_plain hlen hplain),
    fun ops => ?_⟩
  constructor
  · intro hstill
    exact ⟨(alike_stills hlen hstill).mpr (alike_plain hlen trivial),
      (alike_stills hlen hstill).mpr (alike_plain hlen trivial)⟩
  · rintro ⟨htell, hread⟩
    induction ops with
    | nil => simp
    | cons op ops ih =>
      have hop := still_of_alike hlen htell hread
      rw [List.cons_append, alike_cons_still hlen hop] at htell hread
      exact List.forall_mem_cons.mpr ⟨hop, ih htell hread⟩

/-- A refused seek, and then a read of two bytes of three. -/
theorem a_first_read_is_done_alike :
    Alike (.openBuf [1, 2, 3]) (.openFile [1, 2, 3]) [.seek (-1) .en_seek_cur, .tell, .read 2] :=
  (the_streams_stay_alike_just_while_nothing_moves [1, 2, 3] (by decide)).1
    [.seek (-1) .en_seek_cur, .tell] (.read 2)
    (List.forall_mem_cons.mpr ⟨fun t ht => by cases ht; exact Or.inl (by decide),
      List.forall_mem_cons.mpr ⟨trivial, by simp⟩⟩) trivial

/-- A seek to the second byte of three, and then `Tell`. -/
theorem a_seek_moves_the_file_alone :
    ¬ Alike (.openBuf [1, 2, 3]) (.openFile [1, 2, 3]) [.seek 1 .en_seek_set, .tell] := by
  decide

end util.ao_stream
