import Mathlib

/-! # Sorting by selection -/

namespace SmcPim

open List

variable {n : ℕ} {α κ : Type*} [LinearOrder κ]

def IsLeastFrom (key : Fin n → κ) (i j : Fin n) : Prop := i ≤ j ∧ ∀ q, i ≤ q → key j ≤ key q

def Settled (key : Fin n → κ) (k : ℕ) : Prop := ∀ p q : Fin n, p.val < k → p ≤ q → key p ≤ key q

lemma Settled.exchange {key : Fin n → κ} {i j : Fin n} (h : Settled key i)
    (hj : IsLeastFrom key i j) : Settled (key ∘ Equiv.swap i j) (i + 1) := by
  obtain ⟨hij, hleast⟩ := hj
  have hback : ∀ q, i ≤ q → i ≤ Equiv.swap i j q := by
    intro q hq
    rw [Equiv.swap_apply_def]
    split_ifs
    · exact hij
    · exact le_rfl
    · exact hq
  intro p q hp hpq
  rcases Nat.lt_succ_iff_lt_or_eq.mp hp with hlt | heq
  · have hpi : p ≠ i := fun h => hlt.ne (congrArg Fin.val h)
    have hpj : p ≠ j := fun h => (lt_of_lt_of_le hlt hij).ne (congrArg Fin.val h)
    have hswap : p ≤ Equiv.swap i j q := by
      by_cases hq : i ≤ q
      · exact (le_of_lt hlt).trans (hback q hq)
      · have hqi : q ≠ i := fun h => hq h.ge
        have hqj : q ≠ j := fun h => hq (h ▸ hij)
        rw [Equiv.swap_apply_of_ne_of_ne hqi hqj]
        exact hpq
    simp only [Function.comp_apply]
    rw [Equiv.swap_apply_of_ne_of_ne hpi hpj]
    exact h p _ hlt hswap
  · obtain rfl : p = i := Fin.ext heq
    simp only [Function.comp_apply]
    rw [Equiv.swap_apply_left]
    exact hleast _ (hback q hpq)

variable (key : α → κ) (pick : (Fin n → α) → Fin n → Fin n)

def select (f : Fin n → α) (places : List (Fin n)) : Fin n → α :=
  places.foldl (fun f i => f ∘ Equiv.swap i (pick f i)) f

lemma select_perm (f : Fin n → α) (places : List (Fin n)) : (ofFn (select pick f places)).Perm
    (ofFn f) := by
  induction places generalizing f with
  | nil => rfl
  | cons i places ih => exact (ih _).trans (Equiv.Perm.ofFn_comp_perm _ f)

lemma select_settled (hpick : ∀ f i, IsLeastFrom (key ∘ f) i (pick f i)) (f : Fin n → α) {k : ℕ}
    (hk : k ≤ n) : Settled (key ∘ select pick f ((finRange n).take k)) k := by
  induction k with
  | zero =>
    intro p q hp
    exact absurd hp (Nat.not_lt_zero _)
  | succ k ih =>
    have hlt : k < (finRange n).length := by rw [length_finRange]; exact hk
    have hplace : (finRange n)[k] = ⟨k, hk⟩ := by simp
    rw [← take_concat_get' _ _ hlt, hplace, select, foldl_append]
    exact (ih (Nat.le_of_succ_le hk)).exchange (hpick _ _)

lemma select_sorted (hpick : ∀ f i, IsLeastFrom (key ∘ f) i (pick f i)) (f : Fin n → α) :
    Monotone (key ∘ select pick f (finRange n)) := by
  have h := select_settled key pick hpick f le_rfl
  rw [take_of_length_le (length_finRange).le] at h
  exact fun p q hpq => h p q p.isLt hpq

end SmcPim
