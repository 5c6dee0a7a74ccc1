import Mathlib

/-! # Cutting an interval -/

namespace SmcPim.Cuts

open List Nat

def cutsAux (stop : Nat → Nat) : Nat → Nat → Nat → List (Nat × Nat)
  | 0, _, _ => []
  | fuel + 1, v, last =>
    if v ≤ last then (v, min (stop v) last) :: cutsAux stop fuel (min (stop v) last + 1) last
    else []

def cuts (stop : Nat → Nat) (v last : Nat) : List (Nat × Nat) := cutsAux stop (last + 1 - v) v last

def Forward (stop : Nat → Nat) (v last : Nat) : Prop := ∀ w, v ≤ w → w ≤ last → w ≤ stop w

variable {stop : Nat → Nat} {v last : Nat}

lemma Forward.mono (h : Forward stop v last) {w : Nat} (hw : v ≤ w) : Forward stop w last :=
  fun u hu hl => h u (le_trans hw hu) hl

lemma Forward.next (h : Forward stop v last) (hv : v ≤ last) : v < min (stop v) last + 1 := by
  have := h v (le_refl v) hv
  omega

lemma cutsAux_fuel (h : Forward stop v last) {m n : Nat} (hm : last + 1 - v ≤ m)
    (hn : last + 1 - v ≤ n) : cutsAux stop m v last = cutsAux stop n v last := by
  induction m generalizing v n with
  | zero =>
    rcases n with _ | n
    · rfl
    · unfold cutsAux
      rw [if_neg (by omega)]
  | succ m ih =>
    rcases n with _ | n
    · unfold cutsAux
      rw [if_neg (by omega)]
    · unfold cutsAux
      split
      · rename_i hv
        have hnext := h.next hv
        rw [ih (h.mono (le_of_lt hnext)) (n := n) (by omega) (by omega)]
      · rfl

lemma cuts_nil (h : last < v) : cuts stop v last = [] := by
  unfold cuts
  rw [show last + 1 - v = 0 by omega]
  rfl

lemma cuts_cons (h : Forward stop v last) (hv : v ≤ last) :
    cuts stop v last = (v, min (stop v) last) :: cuts stop (min (stop v) last + 1) last := by
  have hnext := h.next hv
  unfold cuts
  rw [show last + 1 - v = last - v + 1 by omega]
  conv_lhs => unfold cutsAux
  rw [if_pos hv, cutsAux_fuel (h.mono (le_of_lt hnext)) (by omega) (le_refl _)]

/-- Induction over the pieces of an interval. -/
lemma cuts_induction (P : Nat → Prop) (h : Forward stop v last) (hnil : ∀ v, last < v → P v)
    (hcons : ∀ v, Forward stop v last → v ≤ last → P (min (stop v) last + 1) → P v) : P v := by
  induction hk : last + 1 - v using Nat.strongRecOn generalizing v with
  | ind k ih =>
    rcases Nat.lt_or_ge last v with hlt | hle
    · exact hnil v hlt
    · have hnext := h.next hle
      exact hcons v h hle (ih _ (by omega) (h.mono (le_of_lt hnext)) rfl)

section
variable (h : Forward stop v last)
include h

lemma cuts_flatMap : (cuts stop v last).flatMap (fun x => range' x.1 (x.2 + 1 - x.1)) =
      range' v (last + 1 - v) := by
  refine cuts_induction (P := fun v => (cuts stop v last).flatMap
    (fun x => range' x.1 (x.2 + 1 - x.1)) = range' v (last + 1 - v)) h ?_ ?_
  · intro v hlt
    rw [cuts_nil hlt, show last + 1 - v = 0 by omega]
    rfl
  · intro v h hle ih
    have hnext := h.next hle
    rw [cuts_cons h hle, flatMap_cons, ih]
    dsimp only
    have hsplit : last + 1 - v =
        (min (stop v) last + 1 - v) + (last + 1 - (min (stop v) last + 1)) := by omega
    rw [hsplit, ← range'_append]
    congr 2
    omega

lemma cuts_sum : ((cuts stop v last).map fun x => x.2 + 1 - x.1).sum = last + 1 - v := by
  have hlen := congrArg length (cuts_flatMap h)
  rw [length_flatMap, length_range'] at hlen
  simpa using hlen

variable {x : Nat × Nat} {w : Nat}

lemma mem_cuts (hx : x ∈ cuts stop v last) :
    v ≤ x.1 ∧ x.1 ≤ x.2 ∧ x.2 ≤ last ∧ x.2 = min (stop x.1) last := by
  revert x
  refine cuts_induction (P := fun v => ∀ {x : Nat × Nat}, x ∈ cuts stop v last →
    v ≤ x.1 ∧ x.1 ≤ x.2 ∧ x.2 ≤ last ∧ x.2 = min (stop x.1) last) h ?_ ?_
  · intro v hlt x hx
    rw [cuts_nil hlt] at hx
    exact absurd hx not_mem_nil
  · intro v h hle ih x hx
    have hnext := h.next hle
    rw [cuts_cons h hle] at hx
    rcases mem_cons.mp hx with rfl | hx
    · exact ⟨le_refl v, by dsimp only; omega, min_le_right _ _, rfl⟩
    · obtain ⟨h1, h2, h3, h4⟩ := ih hx
      exact ⟨by omega, h2, h3, h4⟩

lemma exists_cut (hlo : v ≤ w) (hhi : w ≤ last) : ∃ x ∈ cuts stop v last, x.1 ≤ w ∧ w ≤ x.2 := by
  have hmem : w ∈ range' v (last + 1 - v) := by
    rw [mem_range'_1]
    omega
  rw [← cuts_flatMap h] at hmem
  obtain ⟨x, hx, hw⟩ := mem_flatMap.mp hmem
  rw [mem_range'_1] at hw
  exact ⟨x, hx, by omega, by omega⟩

lemma cuts_pairwise : (cuts stop v last).Pairwise fun x y => x.2 < y.1 := by
  refine cuts_induction (P := fun v => (cuts stop v last).Pairwise fun x y => x.2 < y.1) h ?_ ?_
  · intro v hlt
    rw [cuts_nil hlt]
    exact List.Pairwise.nil
  · intro v h hle ih
    have hnext := h.next hle
    rw [cuts_cons h hle, pairwise_cons]
    refine ⟨?_, ih⟩
    intro y hy
    have := (mem_cuts (h.mono (le_of_lt hnext)) hy).1
    dsimp only
    omega

lemma cuts_nodup : (cuts stop v last).Nodup := by
  apply (cuts_pairwise h).imp_of_mem
  rintro x y hx - hlt rfl
  have := (mem_cuts h hx).2.1
  omega

lemma cut_unique {y : Nat × Nat} (hx : x ∈ cuts stop v last) (hy : y ∈ cuts stop v last)
    (hwx : x.1 ≤ w ∧ w ≤ x.2) (hwy : y.1 ≤ w ∧ w ≤ y.2) : x = y := by
  have hsymm : Std.Symm fun x y : Nat × Nat => x.2 < y.1 ∨ y.2 < x.1 ∨ x = y := by
    refine ⟨?_⟩
    rintro x y (hlt | hlt | rfl)
    · exact .inr (.inl hlt)
    · exact .inl hlt
    · exact .inr (.inr rfl)
  have hpair : (cuts stop v last).Pairwise fun x y => x.2 < y.1 ∨ y.2 < x.1 ∨ x = y :=
    (cuts_pairwise h).imp .inl
  rcases hpair.forall_of_forall (fun _ _ => .inr (.inr rfl)) hx hy with hlt | hlt | heq
  · omega
  · omega
  · exact heq

lemma cut_start (hx : x ∈ cuts stop v last) :
    x.1 = v ∨ ∃ w, v ≤ w ∧ w < x.1 ∧ x.1 = stop w + 1 := by
  revert x
  refine cuts_induction (P := fun v => ∀ {x : Nat × Nat}, x ∈ cuts stop v last →
    x.1 = v ∨ ∃ w, v ≤ w ∧ w < x.1 ∧ x.1 = stop w + 1) h ?_ ?_
  · intro v hlt x hx
    rw [cuts_nil hlt] at hx
    exact absurd hx not_mem_nil
  · intro v h hle ih x hx
    have hnext := h.next hle
    rw [cuts_cons h hle] at hx
    rcases mem_cons.mp hx with rfl | hx
    · exact .inl rfl
    · obtain ⟨hlo, hmid, hhi, -⟩ := mem_cuts (h.mono (le_of_lt hnext)) hx
      rcases ih hx with heq | ⟨w, hw, hlt, heq⟩
      · exact .inr ⟨v, le_refl v, by omega, by omega⟩
      · exact .inr ⟨w, by omega, hlt, heq⟩

end

end SmcPim.Cuts
