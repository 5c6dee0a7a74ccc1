import Mathlib

/-! # Counts over threads -/

namespace SmcPim

open Finset

variable {τ π : Type*} [Fintype τ] {w w' : π → ℤ} {f : τ → π}

def tally (w : π → ℤ) (f : τ → π) : ℤ := ∑ t, w (f t)

lemma tally_update [DecidableEq τ] (w : π → ℤ) (f : τ → π) (t : τ) (x : π) :
    tally w (Function.update f t x) = tally w f - w (f t) + w x := by
  have hrest : ∑ u ∈ univ.erase t, w (Function.update f t x u) = ∑ u ∈ univ.erase t, w (f u) :=
    sum_congr rfl fun u hu => by rw [Function.update_of_ne (ne_of_mem_erase hu)]
  have hnew := add_sum_erase univ (fun u => w (Function.update f t x u)) (mem_univ t)
  have hold := add_sum_erase univ (fun u => w (f u)) (mem_univ t)
  rw [Function.update_self, hrest] at hnew
  unfold tally
  omega

lemma tally_zero {x : π} (w : π → ℤ) (hf : ∀ t, f t = x) (hx : w x = 0) : tally w f = 0 := by simp
    [tally, hf, hx]

lemma le_tally (h : ∀ x, 0 ≤ w x) (t : τ) : w (f t) ≤ tally w f :=
  single_le_sum (f := fun u => w (f u)) (fun u _ => h (f u)) (mem_univ t)

lemma tally_gap (h : ∀ x, w x ≤ w' x) (t : τ) : w' (f t) - w (f t) ≤ tally w' f - tally w f := by
  unfold tally
  rw [← sum_sub_distrib]
  exact single_le_sum (f := fun u => w' (f u) - w (f u)) (fun u _ => sub_nonneg.mpr (h _)) (mem_univ t)

end SmcPim
