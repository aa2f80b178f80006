import Mathlib.Algebra.Group.Nat.Defs
import Mathlib.Data.List.Induction
import UnionScript.Text.Hex

/-!
# Hexadecimal digits read back

A number is written in a fixed number of digits, and bytes in two digits each.  Nothing is lost
either way: the digits of a number that fits denote the number (`read?_digits`), the bytes of a
number that fits do (`number_bytes`), and the digits of bytes are decoded to the bytes
(`decode?_bytes`).
-/

namespace UnionScript.Text.Hex

/-- The number that bytes denote, the most significant one first. -/
def number (bytes : List UInt8) : Nat :=
  bytes.foldl (fun n byte => 256 * n + byte.toNat) 0

/-- The bytes that digits denote, two digits for each byte; nothing if one of them is no digit or
one is left over. -/
def decode? : List Char → Option (List UInt8)
  | [] => some []
  | [_] => none
  | high :: low :: rest => do
    let byte ← read? [high, low]
    let bytes ← decode? rest
    return UInt8.ofNat byte :: bytes

/-- The character is a digit, and a capital one if it is a letter. -/
def isCapitalDigit (c : Char) : Bool :=
  c.isDigit || ('A' ≤ c && c ≤ 'F')

/-- A literal writes bytes: behind `0x` it has two capital digits for each byte, and the digits are
decoded to the bytes. -/
inductive Writes (bytes : List UInt8) (literal : String) : Prop
  | digits {digits : List Char} (hliteral : literal.toList = '0' :: 'x' :: digits)
      (hlength : digits.length = 2 * bytes.length) (hcapital : ∀ c ∈ digits, isCapitalDigit c)
      (hdecode : decode? digits = some bytes) : Writes bytes literal

/-- A literal writes a number in a fixed number of bytes. -/
def WritesNumber (width n : Nat) (literal : String) : Prop :=
  ∃ bytes, bytes.length = width ∧ number bytes = n ∧ Writes bytes literal

variable {base : Char} {d n width : Nat}

/-- A digit has the value that it is written for. -/
theorem value?_digit (hbase : base = 'A' ∨ base = 'a') (hd : d < 16) :
    value? (digit base d) = some d := by
  revert d
  rcases hbase with rfl | rfl <;> decide

@[simp]
theorem length_digits (base : Char) (width n : Nat) : (digits base width n).length = width := by
  induction width generalizing n with
  | zero => rfl
  | succ width ih => simp [digits, ih]

/-- Digits whose letters are counted from a capital are capital ones. -/
theorem isCapitalDigit_of_mem_digits {c : Char} (hc : c ∈ digits 'A' width n) :
    isCapitalDigit c := by
  have hdigit : ∀ d < 16, isCapitalDigit (digit 'A' d) := by decide
  induction width generalizing n with
  | zero => cases hc
  | succ width ih =>
      rcases List.mem_append.1 hc with hfirst | hlast
      · exact ih hfirst
      · obtain rfl := List.mem_singleton.1 hlast
        exact hdigit (n % 16) (Nat.mod_lt n (by decide))

/-- One digit more makes sixteen times the number and the value of the digit. -/
theorem read?_append_singleton (cs : List Char) (c : Char) :
    read? (cs ++ [c]) = (read? cs).bind (fun n => (value? c).map (16 * n + ·)) := by
  simp [read?, List.foldlM_append]

/-- Characters that have a value are visible ones of ASCII. -/
theorem range_of_value? {c : Char} (h : (value? c).isSome) : 0x20 < c.toNat ∧ c.toNat < 0x80 := by
  simp only [value?, Bool.and_eq_true, decide_eq_true_eq] at h
  grind

theorem lt_of_value? {c : Char} (h : value? c = some d) : d < 16 := by
  simp only [value?, Bool.and_eq_true, decide_eq_true_eq] at h
  grind

/-- Digits are what has a value. -/
theorem isSome_value?_of_read? {cs : List Char} (h : read? cs = some n) :
    ∀ c ∈ cs, (value? c).isSome := by
  induction cs using List.reverseRecOn generalizing n with
  | nil => simp
  | append_singleton cs c ih =>
      rw [read?_append_singleton] at h
      obtain ⟨m, hm, h⟩ := Option.bind_eq_some_iff.1 h
      obtain ⟨d, hd, -⟩ := Option.map_eq_some_iff.1 h
      intro c' hc'
      rcases List.mem_append.1 hc' with hfirst | hlast
      · exact ih hm c' hfirst
      · obtain rfl := List.mem_singleton.1 hlast
        simp [hd]

/-- Digits denote a number that fits in them. -/
theorem lt_of_read? {cs : List Char} (h : read? cs = some n) : n < 16 ^ cs.length := by
  induction cs using List.reverseRecOn generalizing n with
  | nil =>
      cases h
      decide
  | append_singleton cs c ih =>
      rw [read?_append_singleton] at h
      obtain ⟨m, hm, h⟩ := Option.bind_eq_some_iff.1 h
      obtain ⟨d, hd, rfl⟩ := Option.map_eq_some_iff.1 h
      have hhigh := ih hm
      have hlow := lt_of_value? hd
      rw [List.length_append, List.length_singleton, Nat.pow_succ]
      omega

/-- **Numbers are read back** from their digits if they fit. -/
theorem read?_digits (hbase : base = 'A' ∨ base = 'a') (hn : n < 16 ^ width) :
    read? (digits base width n) = some n := by
  induction width generalizing n with
  | zero =>
      obtain rfl : n = 0 := by simpa using hn
      rfl
  | succ width ih =>
      have hhigh : n / 16 < 16 ^ width := by
        rw [Nat.pow_succ] at hn
        omega
      have hlow : value? (digit base (n % 16)) = some (n % 16) :=
        value?_digit hbase (Nat.mod_lt n (by decide))
      rw [digits, read?_append_singleton, ih hhigh, Option.bind_some, hlow, Option.map_some,
        Nat.div_add_mod]

@[simp]
theorem length_bytes (width n : Nat) : (bytes width n).length = width := by
  induction width generalizing n with
  | zero => rfl
  | succ width ih => simp [bytes, ih]

/-- **Numbers are the bytes of their digits.**  The bytes of a number that fits denote it. -/
theorem number_bytes (hn : n < 256 ^ width) : number (bytes width n) = n := by
  induction width generalizing n with
  | zero =>
      obtain rfl : n = 0 := by simpa using hn
      rfl
  | succ width ih =>
      have hhigh : n / 256 < 256 ^ width := by
        rw [Nat.pow_succ] at hn
        omega
      have hlow : (UInt8.ofNat (n % 256)).toNat = n % 256 := by simp
      have hsplit : number (bytes (width + 1) n) =
          256 * number (bytes width (n / 256)) + (UInt8.ofNat (n % 256)).toNat := by
        simp [number, bytes, List.foldl_append]
      rw [hsplit, ih hhigh, hlow, Nat.div_add_mod]

/-- **Bytes are decoded** from their digits. -/
theorem decode?_bytes (bytes : List UInt8) :
    decode? (bytes.flatMap (fun byte => digits 'A' 2 byte.toNat)) = some bytes := by
  induction bytes with
  | nil => rfl
  | cons byte rest ih =>
      have hdigits : digits 'A' 2 byte.toNat =
          [digit 'A' (byte.toNat / 16 % 16), digit 'A' (byte.toNat % 16)] := rfl
      have hread : read? (digits 'A' 2 byte.toNat) = some byte.toNat :=
        read?_digits (Or.inl rfl) (by simpa using byte.toNat_lt)
      rw [hdigits] at hread
      simp [hdigits, decode?, hread, ih]

theorem length_digits_of_bytes (bytes : List UInt8) :
    (bytes.flatMap (fun byte => digits 'A' 2 byte.toNat)).length = 2 * bytes.length := by
  induction bytes with
  | nil => rfl
  | cons byte rest ih =>
      rw [List.flatMap_cons, List.length_append, length_digits, ih, List.length_cons]
      omega

/-- The literal of bytes writes them. -/
theorem writes_literal (bytes : List UInt8) : Writes bytes (literal bytes) := by
  refine .digits (by simp [literal]) (length_digits_of_bytes bytes) (fun c hc => ?_)
    (decode?_bytes bytes)
  obtain ⟨byte, -, hc⟩ := List.mem_flatMap.1 hc
  exact isCapitalDigit_of_mem_digits hc

/-- The literal of the bytes of a number that fits writes the number. -/
theorem writesNumber_literal (hn : n < 256 ^ width) :
    WritesNumber width n (literal (bytes width n)) :=
  ⟨bytes width n, length_bytes width n, number_bytes hn, writes_literal _⟩

end UnionScript.Text.Hex
