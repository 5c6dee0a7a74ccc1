import Mathlib

/-! # Lines, words and numerals -/

namespace SmcPim.Text

open List Nat

variable {c : Char} {l w rest : List Char}

def isSpace (c : Char) : Bool := c = ' ' || 9 ≤ c.toNat && c.toNat ≤ 13

/-! ## Lines -/

def wordsFrom : List Char → List Char → List (List Char)
  | word, [] => if word = [] then [] else [word]
  | word, c :: rest =>
    if isSpace c then (if word = [] then wordsFrom [] rest else word :: wordsFrom [] rest)
    else wordsFrom (word ++ [c]) rest

def words (line : List Char) : List (List Char) := wordsFrom [] line

section
variable (hw : ∀ c ∈ w, isSpace c = false)
include hw

end

/-! ## Numerals -/

def digitValue (c : Char) : Option ℕ :=
  if c.isDigit then some (c.toNat - 48)
  else if c.isLower then some (c.toNat - 87)
  else if c.isUpper then some (c.toNat - 55)
  else none

def IsHex (c : Char) : Prop := ∃ d < 16, digitValue c = some d

lemma digit_bounds (h : c.isDigit = true) : 48 ≤ c.toNat ∧ c.toNat ≤ 57 := by
  rw [Char.isDigit, Bool.and_eq_true, decide_eq_true_iff, decide_eq_true_iff] at h
  exact ⟨UInt32.le_iff_toNat_le.mp h.1, UInt32.le_iff_toNat_le.mp h.2⟩

lemma IsHex.toNat_le (h : IsHex c) : 48 ≤ c.toNat := by
  obtain ⟨d, -, hd⟩ := h
  unfold digitValue at hd
  split_ifs at hd with hdigit hlower hupper
  · exact (digit_bounds hdigit).1
  · rw [Char.isLower, Bool.and_eq_true, decide_eq_true_iff] at hlower
    have : 97 ≤ c.toNat := UInt32.le_iff_toNat_le.mp hlower.1
    omega
  · rw [Char.isUpper, decide_eq_true_iff] at hupper
    have : 65 ≤ c.toNat := UInt32.le_iff_toNat_le.mp hupper.1
    omega

end SmcPim.Text
