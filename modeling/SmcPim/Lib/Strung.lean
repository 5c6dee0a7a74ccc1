import Mathlib

/-! # Lists stored one after the other -/

namespace SmcPim

open List

/-- The lists follow each other from `first` to `next`, with entries of `w` bytes. -/
structure Strung (w first : ℕ) (lists : List (ℕ × ℕ)) (size next : ℕ) : Prop where
  next_eq : next = first + size
  sum : size = (lists.map Prod.snd).sum * w
  inside : ∀ x ∈ lists, x.2 ≠ 0 → first ≤ x.1 ∧ x.1 + x.2 * w ≤ next
  head : ∀ x, lists[0]? = some x → x.1 = if x.2 = 0 then 0 else first
  last : size ≠ 0 → ∃ x ∈ lists, x.2 ≠ 0 ∧ x.1 + x.2 * w = next

variable {w first size next : ℕ} {lists : List (ℕ × ℕ)}

section
variable (h : Strung w first lists size next)
include h

lemma Strung.snoc (count : ℕ) :
    Strung w first (lists ++ [(if count = 0 then 0 else next, count)]) (size + count * w) (next + count * w) := by
  have hnext := h.next_eq
  refine ⟨by omega, ?_, ?_, ?_, ?_⟩
  · rw [map_append, sum_append, Nat.add_mul, ← h.sum]
    simp
  · intro x hx hcount
    rcases mem_append.mp hx with hx | hx
    · have := h.inside x hx hcount
      omega
    · obtain rfl := mem_singleton.mp hx
      simp only [if_neg hcount]
      omega
  · intro x hx
    rcases lists with _ | ⟨y, rest⟩
    · obtain rfl := Option.some.inj hx
      have hsize : size = 0 := by simpa using h.sum
      simp only
      rw [show next = first by omega]
    · exact h.head x hx
  · intro hne
    by_cases hcount : count = 0
    · subst hcount
      obtain ⟨x, hx, hxc, hxn⟩ := h.last (by simpa using hne)
      exact ⟨x, mem_append_left _ hx, hxc, by simpa using hxn⟩
    · exact ⟨_, mem_append_right _ (mem_singleton_self _), hcount, by simp [hcount]⟩

lemma Strung.size_le {m : ℕ} (hm : ∀ x ∈ lists, x.2 ≤ m) : size ≤ lists.length * m * w := by
  rw [h.sum]
  refine Nat.mul_le_mul_right w ?_
  have := sum_le_card_nsmul (lists.map Prod.snd) m (by simpa using fun b a hb => hm (a, b) hb)
  simpa using this

end

end SmcPim
