import SmcPim.Lib.Text

/-!
# Numerals of the checkers

`str2ulong_t` of `timestamp_test.cpp` and `consist_test.cpp`. The weight of a digit and its product with the digit
are of type `int`, the sum is an `unsigned long`.
-/

namespace SmcPim.Checker

open List Int

def toInt (n : ℤ) : ℤ := n.bmod (2 ^ 32)

def toUlong (n : ℤ) : ℕ := (n % 2 ^ 64).toNat

/-- The loop, with the characters that it goes to. A `char` is signed. -/
def addDigits : ℤ → ℕ → List Char → ℕ
  | _, result, [] => result
  | power, result, c :: rest =>
    let num := toInt ((c.toNat : ℤ).bmod 256 - 48)
    let num := toInt (num * power)
    addDigits (toInt (power * 10)) (toUlong (result + num)) rest

/-- `size`, as far as the loop counts down from it. -/
def size (str : List Char) : ℕ := (toInt str.length).toNat

def str2ulong (str : List Char) : ℕ := addDigits 1 0 (str.take (size str)).reverse

/-! ## What a numeral says -/

def digits (str : List Char) : List ℕ := str.reverse.map fun c => c.toNat - 48

def value (str : List Char) : ℕ := Nat.ofDigits 10 (digits str)

structure IsNumeral (str : List Char) : Prop where
  nonempty : str ≠ []
  isDigit : ∀ c ∈ str, c.isDigit = true
  value_lt : value str < 2 ^ 64

def Readable (str : List Char) : Prop := value str < 3 * 10 ^ 9 ∧ (str.length < 2 ^ 31 ∨ value str = 0)

instance (str : List Char) : Decidable (Readable str) := inferInstanceAs (Decidable (_ ∧ _))

/-! ## The sum of the loop -/

def weighed : ℕ → List ℕ → ℤ
  | _, [] => 0
  | k, d :: ds => toInt (d * 10 ^ k) + weighed (k + 1) ds

def weigh : ℕ → ℕ → ℕ → ℤ
  | 0, _, _ => 0
  | m + 1, k, n => toInt ((n % 10 : ℕ) * 10 ^ k) + weigh m (k + 1) (n / 10)

variable {str : List Char} {c : Char} {ds : List ℕ} {m k n : ℕ}

lemma toInt_mul_toInt (a b : ℤ) : toInt (a * toInt b) = toInt (a * b) := by
  rw [toInt, toInt, mul_comm, bmod_mul_bmod, mul_comm, toInt]

lemma toInt_toInt_mul (a b : ℤ) : toInt (toInt a * b) = toInt (a * b) := by
  rw [toInt, toInt, bmod_mul_bmod, toInt]

lemma toInt_of_lt {a : ℤ} (h0 : 0 ≤ a) (h : a < 2 ^ 31) : toInt a = a :=
  bmod_eq_of_le (by omega) (by omega)

lemma abs_toInt_le (a : ℤ) : |toInt a| ≤ 2 ^ 31 := by
  have hle : (-(2 ^ 32 : ℕ) / 2 : ℤ) ≤ toInt a := le_bmod (by norm_num)
  have hlt : toInt a < ((2 ^ 32 : ℕ) + 1 : ℤ) / 2 := bmod_lt (by norm_num)
  rw [abs_le]
  constructor <;> omega

lemma toUlong_add (r a b : ℤ) : toUlong (toUlong (r + a) + b) = toUlong (r + (a + b)) := by
  have hnonneg : 0 ≤ (r + a) % 2 ^ 64 := emod_nonneg _ (by norm_num)
  rw [toUlong, toUlong, toNat_of_nonneg hnonneg, emod_add_emod, add_assoc]
  rfl

lemma digit_eq (hc : c.isDigit = true) : toInt ((c.toNat : ℤ).bmod 256 - 48) =
    (c.toNat - 48 : ℕ) := by
  obtain ⟨hlo, hhi⟩ := Text.digit_bounds hc
  have hchar : (c.toNat : ℤ).bmod 256 = c.toNat := bmod_eq_of_le (by omega) (by omega)
  rw [hchar, toInt_of_lt (by omega) (by omega)]
  omega

lemma addDigits_eq (hstr : ∀ c ∈ str, c.isDigit = true) (k r : ℕ) (hr : r < 2 ^ 64) :
    addDigits (toInt (10 ^ k)) r str = toUlong (r + weighed k (str.map fun c => c.toNat - 48)) := by
  induction str generalizing k r with
  | nil =>
    rw [addDigits, map_nil, weighed, add_zero, toUlong]
    omega
  | cons c str ih =>
    rw [forall_mem_cons] at hstr
    have hnext : toUlong (r + toInt ((c.toNat - 48 : ℕ) * 10 ^ k)) < 2 ^ 64 := by
      unfold toUlong
      omega
    rw [addDigits, digit_eq hstr.1, toInt_mul_toInt, toInt_toInt_mul, ← pow_succ, ih hstr.2 _ _ hnext, toUlong_add,
      map_cons, weighed]

lemma str2ulong_eq (hstr : ∀ c ∈ str, c.isDigit = true) :
    str2ulong str = toUlong (weighed 0 (digits (str.take (size str)))) := by
  have htake : ∀ c ∈ (str.take (size str)).reverse, c.isDigit = true := fun c hc =>
    hstr c (mem_of_mem_take (mem_reverse.mp hc))
  have h := addDigits_eq htake 0 0 (by norm_num)
  rw [toInt_of_lt (by norm_num) (by norm_num), pow_zero, Nat.cast_zero, zero_add] at h
  rw [str2ulong, digits]
  exact h

/-! ## The sum as a function of the number -/

@[simp] lemma weigh_zero (m k : ℕ) : weigh m k 0 = 0 := by
  induction m generalizing k with
  | zero => rfl
  | succ m ih =>
    rw [weigh, Nat.zero_div, ih]
    simp [toInt]

lemma weighed_of_eq_zero (h : Nat.ofDigits 10 ds = 0) : weighed k ds = 0 := by
  induction ds generalizing k with
  | nil => rfl
  | cons d ds ih =>
    rw [Nat.ofDigits_cons] at h
    obtain ⟨hd, hds⟩ : d = 0 ∧ Nat.ofDigits 10 ds = 0 := by omega
    rw [weighed, hd, ih hds]
    simp [toInt]

lemma weighed_eq (hds : ∀ d ∈ ds, d < 10) (h : Nat.ofDigits 10 ds < 10 ^ m) :
    weighed k ds = weigh m k (Nat.ofDigits 10 ds) := by
  induction ds generalizing m k with
  | nil => simp [weighed]
  | cons d ds ih =>
    rw [forall_mem_cons] at hds
    cases m with
    | zero =>
      rw [pow_zero, Nat.lt_one_iff] at h
      rw [h, weighed_of_eq_zero h, weigh_zero]
    | succ m =>
      rw [Nat.ofDigits_cons] at h ⊢
      have hlow : (d + 10 * Nat.ofDigits 10 ds) % 10 = d := by omega
      have hhigh : (d + 10 * Nat.ofDigits 10 ds) / 10 = Nat.ofDigits 10 ds := by omega
      have hlt : Nat.ofDigits 10 ds < 10 ^ m := by
        rw [pow_succ] at h
        omega
      rw [weighed, weigh, hlow, hhigh, ih hds.2 hlt]

lemma abs_weigh_le (m k n : ℕ) : |weigh m k n| ≤ m * 2 ^ 31 := by
  induction m generalizing k n with
  | zero => simp [weigh]
  | succ m ih =>
    have hdigit := abs_toInt_le ((n % 10 : ℕ) * 10 ^ k)
    have hrest := ih (k + 1) (n / 10)
    calc |weigh (m + 1) k n| ≤ |toInt ((n % 10 : ℕ) * 10 ^ k)| + |weigh m (k + 1) (n / 10)| := abs_add_le _ _
      _ ≤ 2 ^ 31 + m * 2 ^ 31 := add_le_add hdigit hrest
      _ = (m + 1 : ℕ) * 2 ^ 31 := by push_cast; ring

lemma weigh_add_low (m k n : ℕ) (hk : k + m ≤ 9) :
    weigh m k n = ((n % 10 ^ m * 10 ^ k : ℕ) : ℤ) := by
  induction m generalizing k n with
  | zero => simp [weigh, Nat.mod_one]
  | succ m ih =>
    have hdigit : ((n % 10 : ℕ) * 10 ^ k : ℤ) < 2 ^ 31 := by
      have hpow : 10 ^ k ≤ 10 ^ 8 := Nat.pow_le_pow_right (by norm_num) (by omega)
      have hmul : n % 10 * 10 ^ k ≤ 9 * 10 ^ 8 := Nat.mul_le_mul (by omega) hpow
      have : ((n % 10 * 10 ^ k : ℕ) : ℤ) ≤ 9 * 10 ^ 8 := by exact_mod_cast hmul
      push_cast at this ⊢
      omega
    rw [weigh, toInt_of_lt (by positivity) hdigit, ih (k + 1) (n / 10) (by omega), pow_succ' 10 m, Nat.mod_mul]
    push_cast
    ring

lemma weigh_split (m l k n : ℕ) : weigh (m + l) k n = weigh m k n + weigh l (k + m) (n / 10 ^ m) := by
  induction m generalizing k n with
  | zero => simp [weigh]
  | succ m ih =>
    have hk : k + 1 + m = k + (m + 1) := by omega
    rw [Nat.succ_add, weigh, weigh, ih, Nat.div_div_eq_div_mul, ← pow_succ', hk, add_assoc]

lemma weigh_high {H : ℕ} (hH : H * 10 ^ 9 < 2 ^ 64) :
    (weigh 11 9 H - (H * 10 ^ 9 : ℕ)) % 2 ^ 64 = 0 ↔ H < 3 := by
  -- The sum is small, so that few numbers come into question.
  have hsmall : ∀ d : Fin 24, (weigh 11 9 d - (d * 10 ^ 9 : ℕ)) % 2 ^ 64 = 0 ↔ d.val < 3 := by decide +kernel
  have hlarge : ∀ d : Fin 24, ¬(weigh 11 9 (18446744050 + d) - ((18446744050 + d) * 10 ^ 9 : ℕ)) % 2 ^ 64 = 0 := by
    decide +kernel
  have habs := abs_le.mp (abs_weigh_le 11 9 H)
  by_cases hlow : H < 24
  · exact hsmall ⟨H, hlow⟩
  by_cases hhigh : 18446744050 ≤ H
  · obtain ⟨d, rfl⟩ := Nat.exists_eq_add_of_le hhigh
    have := hlarge ⟨d, by omega⟩
    exact ⟨fun h => absurd h this, by omega⟩
  · refine ⟨fun h => ?_, by omega⟩
    obtain ⟨q, hq⟩ := dvd_of_emod_eq_zero h
    push_cast at habs hq
    rcases lt_or_ge q 0 with hneg | hpos <;> omega

/-! ## Which numerals are read -/

lemma toUlong_eq_iff {a : ℤ} (hn : n < 2 ^ 64) : toUlong a = n ↔ (a - n) % 2 ^ 64 = 0 := by
  unfold toUlong
  omega

lemma digits_lt (hstr : ∀ c ∈ str, c.isDigit = true) : ∀ d ∈ digits str, d < 10 := by
  intro d hd
  obtain ⟨c, hc, rfl⟩ := mem_map.mp hd
  have := Text.digit_bounds (hstr c (mem_reverse.mp hc))
  omega

lemma toUlong_weighed (hds : ∀ d ∈ ds, d < 10) (h : Nat.ofDigits 10 ds < 2 ^ 64) :
    toUlong (weighed 0 ds) = Nat.ofDigits 10 ds ↔ Nat.ofDigits 10 ds < 3 * 10 ^ 9 := by
  have hpow : Nat.ofDigits 10 ds < 10 ^ (9 + 11) := by omega
  have heq : weighed 0 ds = _ := weighed_eq hds hpow
  generalize Nat.ofDigits 10 ds = n at h hpow heq ⊢
  have hlow : weigh 9 0 n = (n % 10 ^ 9 : ℕ) := by rw [weigh_add_low 9 0 n le_rfl, pow_zero, mul_one]
  have hsum : weighed 0 ds - n = weigh 11 9 (n / 10 ^ 9) - (n / 10 ^ 9 * 10 ^ 9 : ℕ) := by
    rw [heq, weigh_split, hlow, Nat.zero_add]
    omega
  rw [toUlong_eq_iff h, hsum, weigh_high (by omega)]
  omega

lemma value_split (str : List Char) (i : ℕ) :
    value str = value (str.drop i) + 10 ^ (str.drop i).length * value (str.take i) := by
  have h : digits str = digits (str.drop i) ++ digits (str.take i) := by
    rw [digits, digits, digits, ← map_append, ← reverse_append, take_append_drop]
  rw [value, h, Nat.ofDigits_append]
  simp [value, digits]

lemma value_take_eq_zero (h : value str < 2 ^ 64) (hlength : 2 ^ 31 ≤ str.length) :
    value (str.take (size str)) = 0 := by
  have hsize : size str + 2 ^ 31 ≤ str.length := by
    rw [size, toInt, bmod_def]
    split <;> omega
  have hpow : 10 ^ 20 ≤ 10 ^ (str.drop (size str)).length :=
    Nat.pow_le_pow_right (by norm_num) (by rw [length_drop]; omega)
  rw [value_split str (size str)] at h
  by_contra hne
  have := Nat.mul_le_mul hpow (Nat.one_le_iff_ne_zero.mpr hne)
  omega

lemma str2ulong_eq_value_iff (h : IsNumeral str) : str2ulong str = value str ↔ Readable str := by
  rw [str2ulong_eq h.isDigit, Readable]
  by_cases hlength : str.length < 2 ^ 31
  · have hsize : size str = str.length := by
      rw [size, toInt_of_lt (by omega) (by omega), toNat_natCast]
    rw [hsize, take_length]
    exact (toUlong_weighed (digits_lt h.isDigit) h.value_lt).trans ⟨fun hv => ⟨hv, .inl hlength⟩, And.left⟩
  · have hzero := value_take_eq_zero h.value_lt (not_lt.mp hlength)
    have hresult : toUlong (weighed 0 (digits (str.take (size str)))) = 0 := by
      rw [weighed_of_eq_zero hzero]
      rfl
    rw [hresult]
    constructor
    · intro hv
      exact ⟨by omega, .inr hv.symm⟩
    · rintro ⟨-, hshort | hv⟩
      · exact absurd hshort hlength
      · exact hv.symm

/-- Numerals are read, and so compared, as what they say exactly below 3000000000. -/
theorem numerals_ordered_iff {s t : List Char} (hs : IsNumeral s) (ht : IsNumeral t) :
    str2ulong s = value s ∧ str2ulong t = value t ∧ (str2ulong s < str2ulong t ↔ value s < value t) ↔
      Readable s ∧ Readable t := by
  rw [← str2ulong_eq_value_iff hs, ← str2ulong_eq_value_iff ht]
  constructor
  · rintro ⟨hs, ht, -⟩
    exact ⟨hs, ht⟩
  · rintro ⟨hs, ht⟩
    exact ⟨hs, ht, by rw [hs, ht]⟩

theorem numerals_ordered_iff_short :
    str2ulong ['9', '9'] = value ['9', '9'] ∧ str2ulong ['1', '0', '0'] = value ['1', '0', '0'] ∧
      (str2ulong ['9', '9'] < str2ulong ['1', '0', '0'] ↔ value ['9', '9'] < value ['1', '0', '0']) :=
  (numerals_ordered_iff ⟨by decide, by simp, by decide +kernel⟩ ⟨by decide, by simp, by decide +kernel⟩).mpr
    ⟨by decide +kernel, by decide +kernel⟩

/-- Of two time stamps, of 3 and of 10 ms, the earlier one is read as the later one. -/
theorem stamps_swapped :
    let s := ['3', '0', '0', '0', '0', '0', '0', '0', '0', '0']
    let t := ['1', '0', '0', '0', '0', '0', '0', '0', '0', '0', '0']
    IsNumeral s ∧ IsNumeral t ∧ value s < value t ∧ str2ulong s = 18446744072414584320 ∧ str2ulong t = 1410065408 :=
  ⟨⟨by decide, by simp, by decide +kernel⟩, ⟨by decide, by simp, by decide +kernel⟩, by decide +kernel,
    by decide +kernel, by decide +kernel⟩

end SmcPim.Checker
