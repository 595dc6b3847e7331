-- The URLs of `CAoHttp`: how `CrashUrl` takes one apart by three searches. What it gives back
-- for a printed URL is what was printed, and the laws say which texts it takes that are no
-- URLs.
import Aods.Json
import Aods.Occurrences
import Aods.Scanf

open machine occurrences scanf
open util.json (text)

namespace util.ao_http

/-- `find_first_of` for one character, from a position on; `none` is `npos`. -/
def findFirstOf (s : Bytes) (c : UInt8) (start : Nat) : Option Nat :=
  if (s.drop start).any (· = c) then some (start + (s.drop start).findIdx (· = c)) else none

/-- The smaller of two positions, `npos` being larger than any other. -/
def earlier (pos pos' : Option Nat) : Option Nat :=
  match pos, pos' with
  | some n, some m => some (if n < m then n else m)
  | some n, none => some n
  | none, m => m

/-- A position as an `int`. What `npos` keeps is -1. -/
def asInt (pos : Option Nat) : Int :=
  match pos with
  | some n => i32 n
  | none => -1

/-- `substr` from a position up to another. -/
def between (s : Bytes) (start : Nat) (stop : Option Nat) : Bytes :=
  match stop with
  | some n => (s.drop start).take (n - start)
  | none => s.drop start

def hostChar (c : UInt8) : Bool := isAlnum c || isAlpha c || c = 45 || c = 46

/-- `CheckHostName`. Its index is an `int`. -/
def checkHostName (src_addr : Bytes) : Except Fault Bool :=
  if 2147483648 ≤ (src_addr.takeWhile hostChar).length then .error .overrun
  else .ok (src_addr.all hostChar)

def crashHostName (str_url : Bytes) : Except Fault (Option Bytes) :=
  let n_index := i32 (asInt (first [47, 47] str_url) + 2)
  if n_index < 2 then .ok none
  else
    let str_pro_head := str_url.take n_index.toNat
    if str_pro_head ≠ text "http://" ∧ str_pro_head ≠ text "https://" then .ok none
    else
      let un_end_pos := findFirstOf str_url 58 n_index.toNat
      let un_start_obj_pos := findFirstOf str_url 47 n_index.toNat
      let str_host_name := between str_url n_index.toNat (earlier un_end_pos un_start_obj_pos)
      (checkHostName str_host_name).map (fun good => if good then some str_host_name else none)

def crashPort (str_obj : Bytes) : Option Nat :=
  if str_obj.head? ≠ some 58 then some 80
  else
    let n_index := asInt (findFirstOf str_obj 47 0)
    let n_index := if n_index < 0 then i32 str_obj.length else n_index
    if n_index = 1 then some 80
    else
      -- a negative length is the largest there is
      let str_port :=
        if n_index < 1 then str_obj.drop 1 else (str_obj.drop 1).take (n_index - 1).toNat
      if ¬ (str_port.take (i32 str_port.length).toNat).all isAlnum then none
      else
        let n_num := ((scanD str_port).map Prod.fst).getD 0
        if n_num < 0 ∨ 65535 < n_num then none else some n_num.toNat

/-- `CrashUrl`: the host, the port and the object name. An object name that is not found stays
what it was, and a part from behind the end is none. -/
def crashUrl (psz_url str_obj_name : Bytes) : Except Fault (Option (Bytes × Nat × Bytes)) := do
  let str_url := cstr psz_url
  match ← crashHostName str_url with
  | none => .ok none
  | some str_temp_host_name =>
    -- the scheme has a '/', so this is no `npos`
    let n_index := i32 ((findFirstOf str_url 47 0).getD 0 + 2 + str_temp_host_name.length : Nat)
    if n_index < 0 ∨ (str_url.length : Int) < n_index then .error .overrun
    else
      let str_url := str_url.drop n_index.toNat
      match crashPort str_url with
      | none => .ok none
      | some us_temp_port =>
        let n_index := asInt (findFirstOf str_url 47 0)
        let str_obj_name := if 0 ≤ n_index then str_url.drop n_index.toNat else str_obj_name
        .ok (some (str_temp_host_name, us_temp_port, str_obj_name))

/-! ## The parts of a URL -/

def schemes : List Bytes := [text "http://", text "https://"]

/-- What is before the first ':' or '/'. -/
def hostPart (t : Bytes) : Bytes := t.takeWhile (fun b => b ≠ 58 && b ≠ 47)

def pastHost (t : Bytes) : Bytes := t.dropWhile (fun b => b ≠ 58 && b ≠ 47)

/-- The text between a ':' behind the host and the next '/'. -/
def portPart (t : Bytes) : Bytes :=
  if (pastHost t).head? = some 58 then ((pastHost t).drop 1).takeWhile (· ≠ 47) else []

/-- What begins with the first '/' behind the host. -/
def pathPart (t : Bytes) : Bytes := (pastHost t).dropWhile (· ≠ 47)

/-- The number of a port text, when it is taken: letters and digits, and "%d" of them in range. -/
def portNumber (ds : Bytes) : Option Nat :=
  if ds.all isAlnum then
    let n_num := ((scanD ds).map Prod.fst).getD 0
    if n_num < 0 ∨ 65535 < n_num then none else some n_num.toNat
  else none

/-- The port of what is behind the scheme, when it is taken. -/
def takenPort (t : Bytes) : Option Nat :=
  if portPart t = [] then some 80 else portNumber (portPart t)

/-! ## The searches -/

theorem findFirstOf_mem {s : Bytes} {c : UInt8} {start : Nat} (h : c ∈ s.drop start) :
    findFirstOf s c start = some (start + ((s.drop start).takeWhile (· ≠ c)).length) := by
  have hany : (s.drop start).any (· = c) = true := List.any_eq_true.mpr ⟨c, h, by simp⟩
  rw [findFirstOf, if_pos hany, findIdx_eq]

theorem findFirstOf_notMem {s : Bytes} {c : UInt8} {start : Nat} (h : c ∉ s.drop start) :
    findFirstOf s c start = none := by
  have hany : ¬ (s.drop start).any (· = c) = true := by
    rw [List.any_eq_true]
    rintro ⟨b, hb, hbc⟩
    rw [decide_eq_true_iff] at hbc
    subst hbc
    exact h hb
  rw [findFirstOf, if_neg hany]

theorem takeWhile_of_notMem {s : Bytes} {c : UInt8} (h : c ∉ s) : s.takeWhile (· ≠ c) = s := by
  rw [List.takeWhile_eq_self_iff]
  intro b hb
  have hne : b ≠ c := fun he => h (he ▸ hb)
  simpa using hne

theorem take_length_takeWhile (p : UInt8 → Bool) (s : Bytes) :
    s.take (s.takeWhile p).length = s.takeWhile p :=
  (List.prefix_iff_eq_take.mp (List.takeWhile_prefix p)).symm

theorem drop_length_takeWhile (p : UInt8 → Bool) (s : Bytes) :
    s.drop (s.takeWhile p).length = s.dropWhile p := by
  have hsplit : s.take (s.takeWhile p).length ++ s.drop (s.takeWhile p).length =
      s.takeWhile p ++ s.dropWhile p := by
    rw [List.take_append_drop, List.takeWhile_append_dropWhile]
  rw [take_length_takeWhile] at hsplit
  exact List.append_cancel_left hsplit

/-- What is before a ':' and before a '/' is before the first of the two. -/
theorem take_first_of_two (t : Bytes) :
    t.take (min (t.takeWhile (· ≠ 58)).length (t.takeWhile (· ≠ 47)).length) = hostPart t := by
  induction t with
  | nil => rfl
  | cons b t ih =>
    unfold hostPart at ih ⊢
    by_cases h1 : b = 58
    · simp [h1]
    · by_cases h2 : b = 47
      · simp [h2]
      · simp only [ne_eq, h1, h2, not_false_eq_true, decide_true, List.takeWhile_cons,
          Bool.and_self, if_true, List.length_cons, Nat.add_min_add_right,
          List.take_succ_cons] at ih ⊢
        rw [ih]

/-- Between a position and the first ':' or '/' behind it stands a host. -/
theorem between_host (s t : Bytes) :
    between (s ++ t) s.length
      (earlier (findFirstOf (s ++ t) 58 s.length) (findFirstOf (s ++ t) 47 s.length)) =
      hostPart t := by
  have hdrop : (s ++ t).drop s.length = t := List.drop_left
  have htwo := take_first_of_two t
  by_cases h1 : 58 ∈ t
  · rw [findFirstOf_mem (by rw [hdrop]; exact h1), hdrop]
    by_cases h2 : 47 ∈ t
    · rw [findFirstOf_mem (by rw [hdrop]; exact h2), hdrop, ← htwo]
      unfold between earlier
      dsimp only
      rw [hdrop]
      congr 1
      split <;> omega
    · rw [findFirstOf_notMem (by rw [hdrop]; exact h2), ← htwo, takeWhile_of_notMem h2,
        min_eq_left (List.takeWhile_prefix _).length_le]
      unfold between earlier
      dsimp only
      rw [hdrop, Nat.add_sub_cancel_left]
  · rw [findFirstOf_notMem (by rw [hdrop]; exact h1)]
    by_cases h2 : 47 ∈ t
    · rw [findFirstOf_mem (by rw [hdrop]; exact h2), hdrop, ← htwo, takeWhile_of_notMem h1,
        min_eq_right (List.takeWhile_prefix _).length_le]
      unfold between earlier
      dsimp only
      rw [hdrop, Nat.add_sub_cancel_left]
    · rw [findFirstOf_notMem (by rw [hdrop]; exact h2), ← htwo, takeWhile_of_notMem h1,
        takeWhile_of_notMem h2, min_self, List.take_length]
      unfold between earlier
      exact hdrop

theorem asInt_findFirstOf {s : Bytes} (h : (s.takeWhile (· ≠ 47)).length < 2147483648) :
    asInt (findFirstOf s 47 0) = if 47 ∈ s then ((s.takeWhile (· ≠ 47)).length : Int) else -1 := by
  by_cases hmem : 47 ∈ s
  · rw [if_pos hmem, findFirstOf_mem (by exact hmem), Nat.zero_add, List.drop_zero]
    exact i32_of_range (by omega) (by omega)
  · rw [if_neg hmem, findFirstOf_notMem hmem]
    rfl

theorem scheme_cases {scheme : Bytes} (h : scheme ∈ schemes) :
    scheme = text "http://" ∨ scheme = text "https://" := by
  rcases List.mem_cons.mp h with h | h
  · exact Or.inl h
  · exact Or.inr (List.mem_singleton.mp h)

/-! ## What is taken -/

theorem checkHostName_eq {s : Bytes} (h : s.length < 2147483648) :
    checkHostName s = .ok (s.all hostChar) := by
  have hlen := (List.takeWhile_prefix hostChar (l := s)).length_le
  rw [checkHostName, if_neg (by omega)]

theorem crashHostName_scheme {scheme t : Bytes} (hscheme : scheme ∈ schemes)
    (hhost : (hostPart t).length < 2147483648) :
    crashHostName (scheme ++ t) =
      .ok (if (hostPart t).all hostChar then some (hostPart t) else none) := by
  have hcases := scheme_cases hscheme
  have hindex : i32 (asInt (first [47, 47] (scheme ++ t)) + 2) = (scheme.length : Int) ∧
      2 ≤ scheme.length := by
    rcases hcases with rfl | rfl
    · exact ⟨rfl, by decide⟩
    · exact ⟨rfl, by decide⟩
  have hhead : ¬ (scheme ≠ text "http://" ∧ scheme ≠ text "https://") := by
    rintro ⟨h1, h2⟩
    exact hcases.elim h1 h2
  unfold crashHostName
  dsimp only
  rw [hindex.1, if_neg (by omega), Int.toNat_natCast, List.take_left, if_neg hhead, between_host,
    checkHostName_eq hhost]
  rfl

theorem pastHost_append (t : Bytes) : hostPart t ++ pastHost t = t :=
  List.takeWhile_append_dropWhile

theorem head_pastHost {t u : Bytes} {b : UInt8} (h : pastHost t = b :: u) : b = 58 ∨ b = 47 := by
  have hstop := List.head?_dropWhile_not (fun b : UInt8 => b ≠ 58 && b ≠ 47) t
  unfold pastHost at h
  rw [h] at hstop
  by_contra hnot
  rw [not_or] at hnot
  simp [hnot] at hstop

theorem portPart_colon {t u : Bytes} (h : pastHost t = 58 :: u) :
    portPart t = u.takeWhile (· ≠ 47) := by
  rw [portPart, h]
  rfl

theorem portPart_other {t : Bytes} (h : (pastHost t).head? ≠ some 58) : portPart t = [] := by
  rw [portPart, if_neg h]

theorem crashPort_rest (t : Bytes) (hport : (portPart t).length + 1 < 2147483648) :
    crashPort (pastHost t) = takenPort t := by
  unfold crashPort takenPort
  cases hrest : pastHost t with
  | nil =>
    have hnone : portPart t = [] := portPart_other (by simp [hrest])
    simp [hnone]
  | cons b u =>
    by_cases hb : b = 58
    · subst hb
      have hpart := portPart_colon hrest
      have hwhile : (58 :: u : Bytes).takeWhile (· ≠ 47) = 58 :: portPart t := by
        rw [hpart]
        rfl
      have hlen : ((58 :: u : Bytes).takeWhile (· ≠ 47)).length = (portPart t).length + 1 := by
        rw [hwhile, List.length_cons]
      -- the length of all where there is no '/', which is the length of the port
      have hindex : (if asInt (findFirstOf (58 :: u) 47 0) < 0 then i32 ((58 :: u : Bytes).length)
          else asInt (findFirstOf (58 :: u) 47 0)) = (portPart t).length + 1 := by
        rw [asInt_findFirstOf (by rw [hlen]; exact hport), hlen]
        by_cases hmem : 47 ∈ (58 :: u : Bytes)
        · rw [if_pos hmem, if_neg (by omega)]
          rfl
        · have hall : (58 :: u : Bytes).length = (portPart t).length + 1 := by
            rw [← hlen, takeWhile_of_notMem hmem]
          rw [if_neg hmem, if_pos (by decide), hall]
          exact i32_of_range (by omega) (by omega)
      dsimp only
      rw [hindex, if_neg (by simp)]
      by_cases hnil : portPart t = []
      · rw [if_pos (by simp [hnil]), if_pos hnil]
      · have hpos := List.length_pos_iff.mpr hnil
        have htext : ((58 :: u : Bytes).drop 1).take (((portPart t).length : Int) + 1 - 1).toNat =
            portPart t := by
          rw [Int.add_sub_cancel, Int.toNat_natCast, List.drop_one, List.tail_cons, hpart,
            take_length_takeWhile]
        have hwhole : (portPart t).take (i32 ((portPart t).length)).toNat = portPart t := by
          rw [i32_of_range (by omega) (by omega), Int.toNat_natCast, List.take_length]
        have hmore : ¬ ((portPart t).length : Int) + 1 = 1 := by omega
        have hcount : ¬ ((portPart t).length : Int) + 1 < 1 := by omega
        rw [if_neg hmore, if_neg hcount, htext, hwhole, if_neg hnil]
        unfold portNumber
        by_cases hall : (portPart t).all isAlnum = true
        · rw [if_neg (not_not.mpr hall), if_pos hall]
        · rw [if_pos hall, if_neg hall]
    · have hnone : portPart t = [] := portPart_other (by simp [hrest, hb])
      simp [hb, hnone]

/-- Between the host and the path there is a ':' and a port, or nothing. -/
theorem length_before_path (t : Bytes) :
    ((pastHost t).takeWhile (· ≠ 47)).length ≤ (portPart t).length + 1 := by
  cases hrest : pastHost t with
  | nil => simp
  | cons b u =>
    rcases head_pastHost hrest with rfl | rfl
    · rw [portPart_colon hrest]
      exact Nat.le_refl _
    · simp

theorem crashUrl_scheme {scheme t : Bytes} (hscheme : scheme ∈ schemes) (hzero : 0 ∉ t)
    (hhost : (hostPart t).length + 8 < 2147483648) (hport : (portPart t).length + 1 < 2147483648)
    (old : Bytes) : crashUrl (scheme ++ t) old =
      .ok (if (hostPart t).all hostChar then
        (takenPort t).map
          (fun port => (hostPart t, port, if 47 ∈ pastHost t then pathPart t else old))
      else none) := by
  have hcstr : cstr (scheme ++ t) = scheme ++ t := by
    apply cstr_of_notMem
    rw [List.mem_append]
    rintro (h | h)
    · rcases scheme_cases hscheme with rfl | rfl
      · exact absurd h (by decide)
      · exact absurd h (by decide)
    · exact hzero h
  have hslash : (findFirstOf (scheme ++ t) 47 0).getD 0 + 2 = scheme.length ∧
      scheme.length ≤ 8 := by
    rcases scheme_cases hscheme with rfl | rfl
    · exact ⟨rfl, by decide⟩
    · exact ⟨rfl, by decide⟩
  have hdrop : (scheme ++ t).drop (scheme.length + (hostPart t).length) = pastHost t := by
    rw [List.drop_append, List.drop_of_length_le (by omega), Nat.add_sub_cancel_left,
      List.nil_append]
    exact drop_length_takeWhile _ t
  have hin : scheme.length + (hostPart t).length ≤ (scheme ++ t).length := by
    rw [List.length_append]
    exact Nat.add_le_add_left (List.takeWhile_prefix _).length_le _
  have hindex : i32 ((scheme.length + (hostPart t).length : Nat) : Int) =
      (scheme.length + (hostPart t).length : Nat) :=
    i32_of_range (by omega) (by omega)
  unfold crashUrl
  dsimp only
  rw [hcstr, crashHostName_scheme hscheme (by omega)]
  by_cases hgood : (hostPart t).all hostChar = true
  · rw [if_pos hgood, if_pos hgood]
    simp only [bind, Except.bind]
    rw [hslash.1, hindex, if_neg (by omega), Int.toNat_natCast, hdrop, crashPort_rest t hport]
    cases htaken : takenPort t with
    | none => rfl
    | some port =>
      have hobj : asInt (findFirstOf (pastHost t) 47 0) =
          if 47 ∈ pastHost t then (((pastHost t).takeWhile (· ≠ 47)).length : Int) else -1 := by
        apply asInt_findFirstOf
        have hle := length_before_path t
        omega
      dsimp only
      rw [hobj]
      by_cases hmem : 47 ∈ pastHost t
      · rw [if_pos hmem, if_pos hmem, if_pos (by omega), Int.toNat_natCast, drop_length_takeWhile]
        rfl
      · rw [if_neg hmem, if_neg hmem, if_neg (by decide)]
        rfl
  · rw [if_neg hgood, if_neg hgood]
    rfl

theorem scheme_of_crashUrl {url old : Bytes} {r : Bytes × Nat × Bytes}
    (h : crashUrl url old = .ok (some r)) : ∃ scheme ∈ schemes, ∃ t, cstr url = scheme ++ t := by
  obtain ⟨host, hhost, h⟩ := bind_ok h
  cases host with
  | none => cases h
  | some host =>
    unfold crashHostName at hhost
    dsimp only at hhost
    split at hhost
    · cases hhost
    split at hhost
    · cases hhost
    · rename_i hhead
      refine ⟨_, ?_, _,
        (List.take_append_drop (i32 (asInt (first [47, 47] (cstr url)) + 2)).toNat (cstr url)).symm⟩
      unfold schemes
      rw [List.mem_cons, List.mem_singleton]
      by_contra hnot
      rw [not_or] at hnot
      exact hhead hnot

/-! ## Ports -/

/-- A port text that is taken: letters and digits, whose leading digits an `int` keeps in range. -/
def PortTaken (ds : Bytes) : Prop :=
  (∀ b ∈ ds, isAlnum b = true) ∧ number (ds.takeWhile isDigit) < 9223372036854775808 ∧
    number (ds.takeWhile isDigit) % 4294967296 ≤ 65535

theorem signed_alnum {ds : Bytes} (h : ∀ b ∈ ds, isAlnum b = true) :
    signed ds = if ds.takeWhile isDigit = [] then none
      else some (false, number (ds.takeWhile isDigit), ds.dropWhile isDigit) := by
  cases ds with
  | nil => rfl
  | cons d ds =>
    have hd := h d List.mem_cons_self
    have hlow : 48 ≤ d.toNat := by
      simp only [isAlnum, isDigit, isAlpha, Bool.or_eq_true, Bool.and_eq_true, decide_eq_true_eq,
        UInt8.le_iff_toNat_le, UInt8.reduceToNat] at hd
      omega
    have hspace : isSpace d = false := by
      rw [Bool.eq_false_iff]
      intro hs
      simp only [isSpace, Bool.or_eq_true, Bool.and_eq_true, decide_eq_true_eq,
        UInt8.le_iff_toNat_le, ← UInt8.toNat_inj, UInt8.reduceToNat] at hs
      omega
    have h45 : d ≠ 45 := by
      rintro rfl
      exact absurd hlow (by decide)
    have h43 : d ≠ 43 := by
      rintro rfl
      exact absurd hlow (by decide)
    have hskip : skipSpace (d :: ds) = d :: ds := by
      rw [skipSpace, List.dropWhile_cons_of_neg]
      simp [hspace]
    have hsign : sign (d :: ds) = (false, d :: ds) := by
      rw [sign, if_neg h45, if_neg h43]
    unfold signed
    dsimp only
    rw [hskip, hsign]

/-- An `int` keeps the lower half of a number that a `long` holds, and -1 of a larger one. -/
theorem int_in_range_iff (n : Nat) :
    ¬ (i32 (min n 9223372036854775807 : Nat) < 0 ∨ 65535 < i32 (min n 9223372036854775807 : Nat)) ↔
      n < 9223372036854775808 ∧ n % 4294967296 ≤ 65535 := by
  by_cases hn : n < 9223372036854775808
  · have hmin : min n 9223372036854775807 = n := by omega
    rw [hmin]
    unfold i32 u32
    split <;> omega
  · have hmin : min n 9223372036854775807 = 9223372036854775807 := by omega
    rw [hmin]
    exact iff_of_false (by decide) (fun h => hn h.1)

theorem portNumber_ne_none_iff (ds : Bytes) : portNumber ds ≠ none ↔ PortTaken ds := by
  unfold portNumber PortTaken
  by_cases hall : ds.all isAlnum = true
  · have halnum := List.all_eq_true.mp hall
    rw [if_pos hall, and_iff_right halnum]
    unfold scanD
    rw [signed_alnum halnum]
    by_cases hnone : ds.takeWhile isDigit = []
    · rw [if_pos hnone, hnone]
      simp [number]
    · rw [if_neg hnone]
      simp only [Option.map_some, Option.getD_some, Bool.false_eq_true, if_false]
      rw [← int_in_range_iff]
      split
      · rename_i hout
        exact iff_of_false (by simp) (not_not.mpr hout)
      · rename_i hin
        exact iff_of_true (by simp) hin
  · rw [if_neg hall]
    refine iff_of_false (by simp) (fun h => hall (List.all_eq_true.mpr h.1))

theorem takenPort_ne_none_iff (t : Bytes) : takenPort t ≠ none ↔ PortTaken (portPart t) := by
  unfold takenPort
  by_cases hnil : portPart t = []
  · rw [if_pos hnil, hnil]
    exact iff_of_true (by simp) ⟨by simp, by decide, by decide⟩
  · rw [if_neg hnil]
    exact portNumber_ne_none_iff _

theorem portNumber_decimal {n : Nat} (h : n ≤ 65535) : portNumber (decimal n) = some n := by
  have hdigits := isDigit_decimal n
  have hall : (decimal n).all isAlnum = true := by
    rw [List.all_eq_true]
    intro b hb
    rw [isAlnum, hdigits b hb, Bool.true_or]
  have hscan : scanD (decimal n) = some ((n : Int), []) := by
    have hsigned := signed_digits (decimal_ne_nil n) hdigits
      (by simp : ∀ b ∈ ([] : Bytes).head?, isDigit b = false) [] (by simp)
    rw [List.nil_append, List.append_nil, number_decimal] at hsigned
    rw [scanD, hsigned]
    have hmin : min n 9223372036854775807 = n := by omega
    simp only [Option.map_some, Bool.false_eq_true, if_false, hmin]
    rw [i32_of_range (by omega) (by omega)]
  unfold portNumber
  rw [if_pos hall, hscan]
  dsimp only [Option.map_some, Option.getD_some]
  rw [if_neg (by omega), Int.toNat_natCast]

/-! ## The form of a URL -/

/-- The characters of a host. -/
def InHost (c : UInt8) : Prop := isAlpha c = true ∨ isDigit c = true ∨ c = 46 ∨ c = 45

instance (c : UInt8) : Decidable (InHost c) := inferInstanceAs (Decidable (_ ∨ _))

/-- One or more digits of a number that a port can be. -/
def IsPort (ds : Bytes) : Prop := ds ≠ [] ∧ (∀ d ∈ ds, isDigit d = true) ∧ number ds ≤ 65535

/-- `http(s)://host[:port][/path]`. -/
def IsUrl (url : Bytes) : Prop :=
  ∃ scheme ∈ schemes, ∃ host port path, url = scheme ++ (host ++ (port ++ path)) ∧
    (host ≠ [] ∧ ∀ c ∈ host, InHost c) ∧ (port = [] ∨ ∃ ds, port = 58 :: ds ∧ IsPort ds) ∧
    (path = [] ∨ path.head? = some 47)

theorem hostChar_iff (c : UInt8) : hostChar c = true ↔ InHost c := by
  simp only [hostChar, InHost, isAlnum, Bool.or_eq_true, decide_eq_true_eq]
  tauto

theorem inHost_ne {c : UInt8} (h : InHost c) : c ≠ 58 ∧ c ≠ 47 ∧ c ≠ 0 := by
  refine ⟨?_, ?_, ?_⟩
  all_goals
    rintro rfl
    exact absurd ((hostChar_iff _).mpr h) (by decide)

theorem parts_of_host {host rest : Bytes} (h : ∀ c ∈ host, InHost c)
    (hrest : rest = [] ∨ rest.head? = some 58 ∨ rest.head? = some 47) :
    hostPart (host ++ rest) = host ∧ pastHost (host ++ rest) = rest := by
  apply takeWhile_append_stop
  · intro c hc
    obtain ⟨h1, h2, _⟩ := inHost_ne (h c hc)
    simp [h1, h2]
  · intro b hb
    rcases hrest with rfl | hrest | hrest
    · cases hb
    · rw [Option.mem_def, hrest] at hb
      cases hb
      rfl
    · rw [Option.mem_def, hrest] at hb
      cases hb
      rfl

theorem parts_of_port {t ds path : Bytes} (h : pastHost t = 58 :: (ds ++ path))
    (hds : ∀ d ∈ ds, isDigit d = true) (hpath : path = [] ∨ path.head? = some 47) :
    portPart t = ds ∧ pathPart t = path := by
  have hparts : (ds ++ path).takeWhile (· ≠ 47) = ds ∧ (ds ++ path).dropWhile (· ≠ 47) = path := by
    apply takeWhile_append_stop
    · intro d hd
      have hdigit := (isDigit_iff d).mp (hds d hd)
      have hne : d ≠ 47 := by
        rintro rfl
        exact absurd hdigit (by decide)
      simp [hne]
    · intro b hb
      rcases hpath with rfl | hpath
      · cases hb
      · rw [Option.mem_def, hpath] at hb
        cases hb
        rfl
  refine ⟨(portPart_colon h).trans hparts.1, ?_⟩
  unfold pathPart
  rw [h]
  exact hparts.2

theorem pathPart_of_head {t : Bytes} (h : (pastHost t).head? = some 47) :
    pathPart t = pastHost t := by
  unfold pathPart
  cases hrest : pastHost t with
  | nil => rfl
  | cons b u =>
    rw [hrest] at h
    cases h
    rfl

/-- The port of a printed URL. -/
def portText (port : Option Nat) : Bytes :=
  match port with
  | some n => 58 :: decimal n
  | none => []

theorem head_printed {path : Bytes} (port : Option Nat) (hpath : path.head? = some 47) :
    portText port ++ path = [] ∨ (portText port ++ path).head? = some 58 ∨
      (portText port ++ path).head? = some 47 := by
  cases port with
  | none => exact Or.inr (Or.inr hpath)
  | some n => exact Or.inr (Or.inl rfl)

/-- The port and the path of a printed URL are those that it was printed of. -/
theorem parts_of_printed {t path : Bytes} {port : Option Nat} (hport : ∀ n ∈ port, n ≤ 65535)
    (hpath : path.head? = some 47) (hpast : pastHost t = portText port ++ path) :
    (portPart t).length ≤ 5 ∧ takenPort t = some (port.getD 80) ∧ pathPart t = path := by
  cases port with
  | none =>
    have hhead : (pastHost t).head? = some 47 := by
      rw [hpast]
      exact hpath
    have hnone : portPart t = [] := by
      apply portPart_other
      rw [hhead]
      decide
    refine ⟨by rw [hnone]; decide, by rw [takenPort, if_pos hnone]; rfl, ?_⟩
    rw [pathPart_of_head hhead, hpast]
    rfl
  | some n =>
    obtain ⟨hdigits, hrest⟩ := parts_of_port hpast (isDigit_decimal n) (Or.inr hpath)
    have hn := hport n rfl
    have hshort : (decimal n).length ≤ 5 := by
      unfold decimal
      rw [List.length_map, Nat.length_toDigits_le_iff (by decide) (by decide)]
      omega
    refine ⟨by rw [hdigits]; exact hshort, ?_, hrest⟩
    rw [takenPort, hdigits, if_neg (decimal_ne_nil n), portNumber_decimal hn]
    rfl

theorem zero_notMem_printed {host path : Bytes} (port : Option Nat) (hhost : ∀ c ∈ host, InHost c)
    (hzero : 0 ∉ path) :
    0 ∉ host ++ (portText port ++ path) := by
  rw [List.mem_append, List.mem_append]
  rintro (h | h | h)
  · exact (inHost_ne (hhost 0 h)).2.2 rfl
  · cases port with
    | none => cases h
    | some n =>
      rcases List.mem_cons.mp h with h | h
      · cases h
      · exact absurd (isDigit_decimal n 0 h) (by decide)
  · exact hzero h

/-- A printed URL is taken, and gives back the host, the port and the path. -/
theorem a_printed_url_gives_its_parts_back (scheme host path old : Bytes) (port : Option Nat)
    (hscheme : scheme ∈ schemes) (hhost : host ≠ [] ∧ ∀ c ∈ host, InHost c)
    (hlen : host.length + 8 < 2147483648) (hport : ∀ n ∈ port, n ≤ 65535)
    (hpath : path.head? = some 47) (hzero : 0 ∉ path) :
    crashUrl (scheme ++ (host ++ (portText port ++ path))) old =
      .ok (some (host, port.getD 80, path)) := by
  obtain ⟨hhostPart, hpast⟩ := parts_of_host hhost.2 (head_printed port hpath)
  have hmem : 47 ∈ pastHost (host ++ (portText port ++ path)) := by
    rw [hpast]
    exact List.mem_append_right _ (List.mem_of_head? hpath)
  obtain ⟨hshort, htaken, hrest⟩ := parts_of_printed hport hpath hpast
  have hgood : (hostPart (host ++ (portText port ++ path))).all hostChar = true := by
    rw [hhostPart, List.all_eq_true]
    exact fun c hc => (hostChar_iff c).mpr (hhost.2 c hc)
  have hbound :=
    crashUrl_scheme hscheme (zero_notMem_printed port hhost.2 hzero) (by rw [hhostPart]; exact hlen)
    (by omega) old
  rw [hbound, if_pos hgood, htaken, Option.map_some, if_pos hmem, hrest, hhostPart]

theorem a_url_with_a_port_and_colons_gives_its_parts_back :
    crashUrl (text "http://a.b:8080/x:1//y") [] = .ok (some (text "a.b", 8080, text "/x:1//y")) :=
  a_printed_url_gives_its_parts_back (text "http://") (text "a.b") (text "/x:1//y") [] (some 8080)
    (by decide) ⟨by decide, by decide +kernel⟩ (by decide) (by decide) (by decide) (by decide)

/-! ## Texts that are no URLs -/

/-- The texts that are taken though they are no URLs: behind the scheme and a good host with a
port that is taken, the host is empty, or no '/' comes, or the port is not one or more digits
of a number in range. -/
def TakenWrongly (url : Bytes) : Prop :=
  ∃ scheme ∈ schemes, ∃ t, url = scheme ++ t ∧ (∀ c ∈ hostPart t, InHost c) ∧
    PortTaken (portPart t) ∧
    (hostPart t = [] ∨ 47 ∉ t ∨ ((pastHost t).head? = some 58 ∧ ¬ IsPort (portPart t)))

theorem scheme_unique {scheme scheme' t t' : Bytes} (h : scheme ∈ schemes) (h' : scheme' ∈ schemes)
    (heq : scheme ++ t = scheme' ++ t') : scheme = scheme' ∧ t = t' := by
  have hfive := congrArg (fun s => s.drop 4 |>.head?) heq
  rcases scheme_cases h with rfl | rfl
  · rcases scheme_cases h' with rfl | rfl
    · exact ⟨rfl, List.append_cancel_left heq⟩
    · cases hfive
  · rcases scheme_cases h' with rfl | rfl
    · cases hfive
    · exact ⟨rfl, List.append_cancel_left heq⟩

theorem mem_pastHost_iff {t : Bytes} : 47 ∈ pastHost t ↔ 47 ∈ t := by
  conv_rhs => rw [← pastHost_append t]
  rw [List.mem_append]
  constructor
  · exact Or.inr
  · rintro (h | h)
    · have hp := List.mem_takeWhile_imp h
      simp at hp
    · exact h

theorem head_pathPart (t : Bytes) : pathPart t = [] ∨ (pathPart t).head? = some 47 := by
  have hstop := List.head?_dropWhile_not (fun b : UInt8 => b ≠ 47) (pastHost t)
  unfold pathPart
  cases hpath : (pastHost t).dropWhile (· ≠ 47) with
  | nil => exact Or.inl rfl
  | cons b u =>
    rw [hpath] at hstop
    right
    simpa using hstop

/-- The form of a URL is told by its parts. -/
theorem isUrl_iff {scheme t : Bytes} (hscheme : scheme ∈ schemes) :
    IsUrl (scheme ++ t) ↔ hostPart t ≠ [] ∧ (∀ c ∈ hostPart t, InHost c) ∧
      ((pastHost t).head? = some 58 → IsPort (portPart t)) := by
  constructor
  · rintro ⟨scheme', hscheme', host, port, path, heq, hhost, hport, hpath⟩
    obtain ⟨rfl, rfl⟩ := scheme_unique hscheme hscheme' heq
    have hrest : port ++ path = [] ∨ (port ++ path).head? = some 58 ∨
        (port ++ path).head? = some 47 := by
      rcases hport with rfl | ⟨ds, rfl, _⟩
      · exact hpath.imp id Or.inr
      · exact Or.inr (Or.inl rfl)
    obtain ⟨h1, h2⟩ := parts_of_host hhost.2 hrest
    rw [h1, h2]
    refine ⟨hhost.1, hhost.2, fun hcolon => ?_⟩
    rcases hport with rfl | ⟨ds, rfl, hds⟩
    · rcases hpath with rfl | hpath
      · cases hcolon
      · rw [List.nil_append, hpath] at hcolon
        cases hcolon
    · rw [(parts_of_port h2 hds.2.1 hpath).1]
      exact hds
  · rintro ⟨hne, hhost, hport⟩
    cases hrest : pastHost t with
    | nil =>
      refine ⟨scheme, hscheme, hostPart t, [], [], ?_, ⟨hne, hhost⟩, Or.inl rfl, Or.inl rfl⟩
      conv_lhs => rw [← pastHost_append t, hrest]
      rfl
    | cons b u =>
      rcases head_pastHost hrest with rfl | rfl
      · refine ⟨scheme, hscheme, hostPart t, 58 :: portPart t, pathPart t, ?_, ⟨hne, hhost⟩,
          Or.inr ⟨_, rfl, hport (by rw [hrest]; rfl)⟩, head_pathPart t⟩
        have hu : portPart t ++ pathPart t = u := by
          rw [portPart_colon hrest, pathPart, hrest]
          exact List.takeWhile_append_dropWhile
        rw [List.cons_append, hu, ← hrest, pastHost_append]
      · refine ⟨scheme, hscheme, hostPart t, [], pastHost t, ?_, ⟨hne, hhost⟩, Or.inl rfl,
          Or.inr (by rw [hrest]; rfl)⟩
        rw [List.nil_append, pastHost_append]

theorem length_portPart_le (t : Bytes) : (portPart t).length ≤ (pastHost t).length := by
  cases hrest : pastHost t with
  | nil =>
    have hnone : portPart t = [] := portPart_other (by simp [hrest])
    simp [hnone]
  | cons b u =>
    rcases head_pastHost hrest with rfl | rfl
    · rw [portPart_colon hrest]
      exact Nat.le_succ_of_le (List.takeWhile_prefix _).length_le
    · have hnone : portPart t = [] := portPart_other (by simp [hrest])
      simp [hnone]

/-- What is taken behind a scheme: the host is good, and the port is taken. -/
theorem crashUrl_some_iff {url scheme t : Bytes} (hlen : url.length + 1 < 2147483648)
    (hscheme : scheme ∈ schemes) (heq : cstr url = scheme ++ t) (r : Bytes × Nat × Bytes) :
    crashUrl url [] = .ok (some r) ↔
      (∀ c ∈ hostPart t, InHost c) ∧ ∃ port, takenPort t = some port ∧
      r = (hostPart t, port, if 47 ∈ pastHost t then pathPart t else []) := by
  have hall : (cstr url).length ≤ url.length := (List.takeWhile_prefix _).length_le
  have hparts := congrArg List.length (pastHost_append t)
  have hport := length_portPart_le t
  have hseven : 7 ≤ scheme.length := by
    rcases scheme_cases hscheme with rfl | rfl
    · decide
    · decide
  rw [heq, List.length_append] at hall
  rw [List.length_append] at hparts
  have hzero : 0 ∉ t := by
    intro h
    exact zero_notMem_cstr url (by rw [heq]; exact List.mem_append_right _ h)
  have hurl : crashUrl url [] = crashUrl (scheme ++ t) [] := by
    unfold crashUrl
    rw [← heq, cstr_of_notMem (zero_notMem_cstr url)]
  rw [hurl, crashUrl_scheme hscheme hzero (by omega) (by omega)]
  by_cases hgood : (hostPart t).all hostChar = true
  · have hhost : ∀ c ∈ hostPart t, InHost c :=
      fun c hc => (hostChar_iff c).mp (List.all_eq_true.mp hgood c hc)
    rw [if_pos hgood, and_iff_right hhost, Except.ok.injEq, Option.map_eq_some_iff]
    exact exists_congr (fun port => and_congr_right (fun _ => eq_comm))
  · rw [if_neg hgood]
    refine iff_of_false (by simp) (fun h => hgood ?_)
    rw [List.all_eq_true]
    exact fun c hc => (hostChar_iff c).mpr (h.1 c hc)

/-- What is taken has the form of a URL, and an object name that begins with '/', just when it
is not taken wrongly. -/
theorem what_is_taken_is_a_url_just_when_it_is_not_taken_wrongly (url : Bytes)
    (hlen : url.length + 1 < 2147483648) :
    (∀ r, crashUrl url [] = .ok (some r) → IsUrl (cstr url) ∧ r.2.2 ≠ [] ∧ r.2.2.head? = some 47) ↔
      ¬ TakenWrongly (cstr url) := by
  constructor
  · rintro hurl ⟨scheme, hscheme, t, heq, hhost, hport, hwrong⟩
    obtain ⟨port, hsome⟩ := Option.ne_none_iff_exists'.mp ((takenPort_ne_none_iff t).mpr hport)
    obtain ⟨hform, _, hhead⟩ :=
      hurl _ ((crashUrl_some_iff hlen hscheme heq _).mpr ⟨hhost, port, hsome, rfl⟩)
    rw [heq, isUrl_iff hscheme] at hform
    rcases hwrong with hnil | hslash | ⟨hcolon, hbad⟩
    · exact hform.1 hnil
    · rw [← mem_pastHost_iff] at hslash
      rw [if_neg hslash] at hhead
      cases hhead
    · exact hbad (hform.2.2 hcolon)
  · intro hnot r hr
    obtain ⟨scheme, hscheme, t, heq⟩ := scheme_of_crashUrl hr
    obtain ⟨hhost, port, hsome, rfl⟩ := (crashUrl_some_iff hlen hscheme heq r).mp hr
    have hport : PortTaken (portPart t) := by
      rw [← takenPort_ne_none_iff, hsome]
      exact Option.some_ne_none port
    have hright : ¬ (hostPart t = [] ∨ 47 ∉ t ∨
        ((pastHost t).head? = some 58 ∧ ¬ IsPort (portPart t))) :=
      fun hwrong => hnot ⟨scheme, hscheme, t, heq, hhost, hport, hwrong⟩
    rw [not_or, not_or, not_not, not_and, not_not] at hright
    obtain ⟨hne, hslash, hgood⟩ := hright
    rw [← mem_pastHost_iff] at hslash
    rw [heq, isUrl_iff hscheme]
    dsimp only
    rw [if_pos hslash]
    have hpath : pathPart t ≠ [] := by
      intro hnil
      have hdrop := List.dropWhile_eq_nil_iff.mp hnil 47 hslash
      simp at hdrop
    exact ⟨⟨hne, hhost, hgood⟩, hpath, (head_pathPart t).resolve_left hpath⟩

theorem a_url_without_a_port_is_taken_as_one :
    crashUrl (text "http://a/x") [] = .ok (some (text "a", 80, text "/x")) ∧
      IsUrl (cstr (text "http://a/x")) := by
  have htaken : crashUrl (text "http://a/x") [] = .ok (some (text "a", 80, text "/x")) := by decide
  refine ⟨htaken, ?_⟩
  refine ((what_is_taken_is_a_url_just_when_it_is_not_taken_wrongly (text "http://a/x")
    (by decide)).mpr ?_ _ htaken).1
  rintro ⟨scheme, hscheme, t, heq, _, _, hwrong⟩
  have hsplit : text "http://" ++ text "a/x" = scheme ++ t := heq
  obtain ⟨rfl, rfl⟩ := scheme_unique (by decide) hscheme hsplit
  rcases hwrong with hnil | hslash | ⟨hcolon, _⟩
  · exact absurd hnil (by decide)
  · exact hslash (by decide)
  · exact absurd hcolon (by decide)

/-- A letter in the port. -/
theorem a_port_with_a_letter_is_taken :
    crashUrl (text "http://a:8x/") [] = .ok (some (text "a", 8, text "/")) ∧
      ¬ IsUrl (text "http://a:8x/") := by
  refine ⟨by decide, fun h => ?_⟩
  have hsplit : IsUrl (text "http://" ++ text "a:8x/") := h
  have hform := (isUrl_iff (by decide)).mp hsplit
  have hdigits := (hform.2.2 (by decide)).2.1
  exact absurd (hdigits 120 (by decide)) (by decide)

end util.ao_http
