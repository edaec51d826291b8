import RdmaperfIso.Lib.FixedWidth
import Mathlib.Data.List.TakeWhile

/-! C strings and text streams as byte lists. A string is the list of its bytes before
the terminating NUL; a stream is the list of the bytes still to be read. -/
namespace RdmaperfIso.CString
open FixedWidth

abbrev Bytes := List UInt8

/-- At most `room` bytes, up to and including the first newline, and what is left. -/
def takeLine : ℕ → Bytes → Bytes × Bytes
  | 0, file => ([], file)
  | _ + 1, [] => ([], [])
  | room + 1, c :: file =>
    if c = 10 then ([c], file) else (c :: (takeLine room file).1, (takeLine room file).2)

/-- `fgets` into a buffer of `size` bytes, one of which is kept for the NUL. -/
def fgets (size : ℕ) (file : Bytes) : Option (Bytes × Bytes) :=
  if file = [] then none else some (takeLine (size - 1) file)

/-- `line` has been read and the buffer takes `room` more bytes. -/
def linesFrom (size : ℕ) : ℕ → Bytes → Bytes → List Bytes
  | _, line, [] => if line = [] then [] else [line]
  | room, line, c :: file =>
    if c = 10 ∨ room ≤ 1 then (line ++ [c]) :: linesFrom size (size - 1) [] file
    else linesFrom size (room - 1) (line ++ [c]) file

/-- What the calls of the loop `while (fgets(str, size, fp))` read, one after another. -/
def fgetsAll (size : ℕ) (file : Bytes) : List Bytes := linesFrom size (size - 1) [] file

theorem linesFrom_eq (size room : ℕ) (line file : Bytes) (h : line ≠ [] ∨ file ≠ []) :
    linesFrom size (room + 1) line file =
      (line ++ (takeLine (room + 1) file).1) :: fgetsAll size (takeLine (room + 1) file).2 := by
  induction file generalizing room line with
  | nil =>
    have hl : line ≠ [] := h.resolve_right (by simp)
    simp [linesFrom, takeLine, fgetsAll, hl]
  | cons c file ih =>
    unfold linesFrom takeLine
    by_cases hc : c = 10
    · simp [hc, fgetsAll]
    · rcases room with _ | room
      · simp [hc, takeLine, fgetsAll]
      · have hroom : ¬ (c = 10 ∨ room + 1 + 1 ≤ 1) := by
          rintro (h | h)
          · exact hc h
          · omega
        rw [if_neg hroom, if_neg hc, Nat.add_sub_cancel, ih room (line ++ [c]) (Or.inl (by simp))]
        simp

/-- The list of lines is what repeated calls of `fgets` return. -/
theorem fgetsAll_eq {size : ℕ} (hs : 2 ≤ size) (file : Bytes) :
    fgetsAll size file =
      match fgets size file with
      | none => []
      | some (line, rest) => line :: fgetsAll size rest := by
  by_cases hf : file = []
  · simp [fgets, hf, fgetsAll, linesFrom]
  · obtain ⟨room, rfl⟩ : ∃ room, size = room + 2 := ⟨size - 2, by omega⟩
    have h := linesFrom_eq (room + 2) room [] file (Or.inr hf)
    simpa [fgets, hf, fgetsAll] using h

theorem takeLine_newline {room : ℕ} {body : Bytes} (h : 10 ∉ body) (hlen : body.length < room)
    (rest : Bytes) : takeLine room (body ++ 10 :: rest) = (body ++ [10], rest) := by
  induction body generalizing room with
  | nil =>
    obtain ⟨room, rfl⟩ := Nat.exists_eq_add_of_lt hlen
    simp [takeLine]
  | cons c body ih =>
    obtain ⟨hc, hbody⟩ := List.ne_and_not_mem_of_not_mem_cons h
    obtain ⟨room, rfl⟩ : ∃ n, room = n + 1 := ⟨room - 1, by omega⟩
    rw [List.cons_append, takeLine, if_neg (Ne.symm hc), ih hbody (Nat.lt_of_succ_lt_succ hlen)]
    rfl

theorem takeLine_end {room : ℕ} {body : Bytes} (h : 10 ∉ body) (hlen : body.length ≤ room) :
    takeLine room body = (body, []) := by
  induction body generalizing room with
  | nil => cases room <;> rfl
  | cons c body ih =>
    obtain ⟨hc, hbody⟩ := List.ne_and_not_mem_of_not_mem_cons h
    obtain ⟨room, rfl⟩ : ∃ n, room = n + 1 := ⟨room - 1, by rw [List.length_cons] at hlen; omega⟩
    rw [takeLine, if_neg (Ne.symm hc), ih hbody (Nat.le_of_succ_le_succ hlen)]

/-- A line that fits in the buffer is read as a whole. -/
theorem fgetsAll_newline {size : ℕ} {body : Bytes} (h : 10 ∉ body) (hlen : body.length + 2 ≤ size)
    (rest : Bytes) :
    fgetsAll size (body ++ 10 :: rest) = (body ++ [10]) :: fgetsAll size rest := by
  rw [fgetsAll_eq (by omega), fgets, if_neg (by simp), takeLine_newline h (by omega)]

theorem fgetsAll_end {size : ℕ} {body : Bytes} (h : 10 ∉ body) (hne : body ≠ [])
    (hlen : body.length + 2 ≤ size) : fgetsAll size body = [body] := by
  rw [fgetsAll_eq (by omega), fgets, if_neg hne, takeLine_end h (by omega)]
  rfl

/-- The string at the start of a buffer. -/
def cstr (buffer : Bytes) : Bytes := buffer.takeWhile (· ≠ 0)

/-- The next token of a string and the string that `strtok(NULL, ..)` continues with. -/
def strtok (delim : UInt8) (s : Bytes) : Option (Bytes × Bytes) :=
  let t := s.dropWhile (· = delim)
  if t = [] then none else some (t.takeWhile (· ≠ delim), (t.dropWhile (· ≠ delim)).drop 1)

/-- The non-empty pieces between delimiters. -/
def words (delim : UInt8) (s : Bytes) : List Bytes := (s.splitOn delim).filter (· ≠ [])

section Words
variable {delim : UInt8} {w s : Bytes}

@[simp] theorem words_nil (delim : UInt8) : words delim [] = [] := rfl

theorem words_delim (delim : UInt8) (s : Bytes) : words delim (delim :: s) = words delim s := by
  have h := List.splitOn_append_cons_self (a := delim) [] s
  rw [List.nil_append] at h
  rw [words, words, h]
  rfl

theorem words_append (h : delim ∉ w) (hw : w ≠ []) (s : Bytes) :
    words delim (w ++ delim :: s) = w :: words delim s := by
  rw [words, List.splitOn_append_cons_self_of_not_mem h,
    List.filter_cons_of_pos (by simpa using hw)]
  rfl

theorem words_self (h : delim ∉ w) (hw : w ≠ []) : words delim w = [w] := by
  rw [words, List.splitOn_eq_singleton h]
  simpa using hw

theorem words_dropWhile (delim : UInt8) (s : Bytes) :
    words delim (s.dropWhile (· = delim)) = words delim s := by
  induction s with
  | nil => rfl
  | cons c s ih =>
    by_cases hc : c = delim
    · rw [List.dropWhile_cons_of_pos (by simpa using hc), ih, hc, words_delim]
    · rw [List.dropWhile_cons_of_neg (by simpa using hc)]

/-- Successive calls of `strtok` return the words of a string. -/
theorem strtok_words (delim : UInt8) (s : Bytes) :
    strtok delim s = none ∧ words delim s = [] ∨
      ∃ w rest, strtok delim s = some (w, rest) ∧ words delim s = w :: words delim rest := by
  rw [← words_dropWhile, strtok]
  cases ht : s.dropWhile (· = delim) with
  | nil => exact Or.inl ⟨rfl, rfl⟩
  | cons c t =>
    right
    have hc : c ≠ delim := by
      have h := List.head?_dropWhile_not (· = delim) s
      simpa [ht] using h
    refine ⟨_, _, rfl, ?_⟩
    obtain ⟨w, hw⟩ : ∃ w, w = (c :: t).takeWhile (· ≠ delim) := ⟨_, rfl⟩
    have hnot : delim ∉ w := by
      intro hmem
      rw [hw] at hmem
      simpa using List.mem_takeWhile_imp hmem
    have hne : w ≠ [] := by
      rw [hw, List.takeWhile_cons_of_pos (by simpa using hc)]
      exact List.cons_ne_nil _ _
    have happ := (List.takeWhile_append_dropWhile (p := (· ≠ delim)) (l := c :: t)).symm
    rw [← hw] at happ ⊢
    cases hd : (c :: t).dropWhile (· ≠ delim) with
    | nil =>
      rw [hd, List.append_nil] at happ
      rw [happ, words_self hnot hne]
      rfl
    | cons d rest =>
      have hdelim : d = delim := by
        have h := List.head?_dropWhile_not (· ≠ delim) (c :: t)
        rw [hd] at h
        simpa using h
      rw [hd, hdelim] at happ
      rw [happ, words_append hnot hne]
      rfl

theorem words_of_strtok {rest : Bytes} (h : strtok delim s = some (w, rest)) :
    words delim s = w :: words delim rest := by
  obtain ⟨hnone, -⟩ | ⟨w', rest', hsome, hwords⟩ := strtok_words delim s
  · exact absurd (hnone.symm.trans h) (by simp)
  · obtain ⟨rfl, rfl⟩ := Prod.mk.inj (Option.some.inj (hsome.symm.trans h))
    exact hwords

theorem strtok_of_words {ws : List Bytes} (h : words delim s = w :: ws) :
    ∃ rest, strtok delim s = some (w, rest) ∧ words delim rest = ws := by
  obtain ⟨-, hnil⟩ | ⟨w', rest, hsome, hwords⟩ := strtok_words delim s
  · exact absurd (hnil.symm.trans h) (by simp)
  · obtain ⟨rfl, rfl⟩ := List.cons.inj (hwords.symm.trans h)
    exact ⟨rest, hsome, rfl⟩

theorem ne_nil_of_mem_words (h : w ∈ words delim s) : w ≠ [] := by
  simpa using (List.mem_filter.mp h).2

end Words

def isspace (c : UInt8) : Bool := c = 32 ∨ 9 ≤ c ∧ c ≤ 13

def isdigit (c : UInt8) : Bool := 48 ≤ c ∧ c ≤ 57

/-- The number at the start of a string; zero when there is no digit. -/
def digits (s : Bytes) : ℕ := (s.takeWhile isdigit).foldl (fun n c => 10 * n + (c.toNat - 48)) 0

/-- Whether the number after the blanks has a minus sign, and its digits. -/
def signedDigits (s : Bytes) : Bool × ℕ :=
  match s.dropWhile isspace with
  | [] => (false, 0)
  | c :: t => if c = 45 then (true, digits t) else (false, digits (if c = 43 then t else c :: t))

/-- Base ten; a value outside the range of `long` is the nearest end of the range. -/
def strtol (s : Bytes) : ℤ :=
  let (negative, n) := signedDigits s
  if negative then max (-n) (-2 ^ 63) else min n (2 ^ 63 - 1)

/-- The low 32 bits of `strtol`, as the GNU library computes it. -/
def atoi (s : Bytes) : ℤ := toSigned 32 (strtol s)

/-- Base ten; a minus sign negates modulo `2 ^ 64`, and a value past the range is the
largest one. -/
def strtoull (s : Bytes) : ℕ :=
  let (negative, n) := signedDigits s
  if 2 ^ 64 ≤ n then 2 ^ 64 - 1 else if negative then wrap 64 (2 ^ 64 - n) else n

def digit (n : ℕ) : UInt8 := UInt8.ofNat (48 + n)

/-- The decimal numeral of a number. -/
def decimal (n : ℕ) : Bytes :=
  if n < 10 then [digit n] else decimal (n / 10) ++ [digit (n % 10)]

section Decimal
variable {n k : ℕ}

theorem decimal_of_lt (h : n < 10) : decimal n = [digit n] := by rw [decimal, if_pos h]

theorem decimal_of_le (h : 10 ≤ n) : decimal n = decimal (n / 10) ++ [digit (n % 10)] := by
  rw [decimal, if_neg (by omega)]

theorem digit_toNat (h : n < 10) : (digit n).toNat = 48 + n := by
  rw [digit, UInt8.toNat_ofNat_of_lt' (by unfold UInt8.size; omega)]

theorem isdigit_digit (h : n < 10) : isdigit (digit n) = true := by
  have hn := digit_toNat h
  simp only [isdigit, UInt8.le_iff_toNat_le, hn, UInt8.reduceToNat, decide_eq_true_eq]
  omega

theorem decimal_ne_nil (n : ℕ) : decimal n ≠ [] := by
  by_cases h : n < 10
  · simp [decimal_of_lt h]
  · simp [decimal_of_le (not_lt.mp h)]

theorem isdigit_of_mem_decimal {c : UInt8} (h : c ∈ decimal n) : isdigit c = true := by
  induction n using decimal.induct with
  | case1 n hn =>
    rw [decimal_of_lt hn, List.mem_singleton] at h
    exact h ▸ isdigit_digit hn
  | case2 n hn ih =>
    rw [decimal_of_le (not_lt.mp hn), List.mem_append, List.mem_singleton] at h
    obtain h | rfl := h
    · exact ih h
    · exact isdigit_digit (Nat.mod_lt n (by decide))

theorem length_decimal_le (h : n < 10 ^ (k + 1)) : (decimal n).length ≤ k + 1 := by
  induction k generalizing n with
  | zero => simp [decimal_of_lt (n := n) (by omega)]
  | succ k ih =>
    by_cases hn : n < 10
    · simp [decimal_of_lt hn]
    · have hdiv : n / 10 < 10 ^ (k + 1) := by
        rw [Nat.div_lt_iff_lt_mul (by decide), ← pow_succ]
        exact h
      rw [decimal_of_le (not_lt.mp hn), List.length_append, List.length_singleton]
      exact Nat.succ_le_succ (ih hdiv)

theorem digits_decimal (n : ℕ) : digits (decimal n) = n := by
  have htake (n : ℕ) : (decimal n).takeWhile isdigit = decimal n :=
    List.takeWhile_eq_self_iff.mpr fun c hc => isdigit_of_mem_decimal hc
  induction n using decimal.induct with
  | case1 n hn =>
    rw [digits, htake, decimal_of_lt hn, List.foldl_cons, List.foldl_nil, digit_toNat hn]
    omega
  | case2 n hn ih =>
    rw [digits, htake] at ih
    rw [digits, htake, decimal_of_le (not_lt.mp hn), List.foldl_append, ih, List.foldl_cons,
      List.foldl_nil, digit_toNat (Nat.mod_lt n (by decide))]
    omega

theorem not_sign_of_isdigit {c : UInt8} (h : isdigit c = true) :
    isspace c = false ∧ c ≠ 45 ∧ c ≠ 43 := by
  simp only [isdigit, Bool.decide_and, Bool.and_eq_true, decide_eq_true_eq,
    UInt8.le_iff_toNat_le] at h
  simp only [isspace, decide_eq_false_iff_not, UInt8.le_iff_toNat_le, ne_eq, ← UInt8.toNat_inj]
  simp only [UInt8.reduceToNat] at h ⊢
  omega

theorem signedDigits_decimal (n : ℕ) : signedDigits (decimal n) = (false, n) := by
  obtain ⟨c, t, hct⟩ := List.exists_cons_of_ne_nil (decimal_ne_nil n)
  have hc : isdigit c = true := by
    apply isdigit_of_mem_decimal (n := n)
    rw [hct]
    exact List.mem_cons_self
  obtain ⟨hspace, hminus, hplus⟩ := not_sign_of_isdigit hc
  have hnum := digits_decimal n
  rw [hct] at hnum ⊢
  rw [signedDigits, List.dropWhile_cons_of_neg (by simp [hspace])]
  simp only [if_neg hminus, if_neg hplus, hnum]

theorem atoi_decimal (h : n < 2 ^ 31) : atoi (decimal n) = n := by
  have hmin : min (n : ℤ) (2 ^ 63 - 1) = n := by omega
  rw [atoi, strtol, signedDigits_decimal]
  simp only [Bool.false_eq_true, if_false, hmin]
  exact toSigned_of_lt h (by decide)

theorem strtoull_decimal (h : n < 2 ^ 64) : strtoull (decimal n) = n := by
  rw [strtoull, signedDigits_decimal]
  simp only [Bool.false_eq_true, if_false, if_neg (not_le.mpr h)]

end Decimal
end RdmaperfIso.CString
