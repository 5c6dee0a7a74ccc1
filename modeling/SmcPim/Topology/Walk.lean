import SmcPim.Topology.Model

/-! # The walk around a component -/

namespace SmcPim.Topology

open List

variable {c : Component} {n i succ : ℕ}

def other (c : Component) (n i : ℕ) : ℕ := if c.start + i < n then c.start + i else c.start + i + 1

lemma other_inj {i' : ℕ} : other c n i = other c n i' ↔ i = i' := by
  unfold other
  split_ifs <;> omega

lemma other_mem (hi : i < c.size - 1) : other c n i ≠ n ∧ other c n i ∈ range' c.start c.size := by
  rw [mem_range'_1]
  unfold other
  split_ifs <;> omega

lemma findSuccessor_first (hn : n ∈ range' c.start c.size) (hsucc : succ ∈ range' c.start c.size)
    (hsize : 2 ≤ c.size) : ∃ i < c.size - 1, findSuccessor c n succ = other c n i := by
  rw [mem_range'_1] at hn hsucc
  rcases lt_trichotomy succ n with hlt | rfl | hgt
  · refine ⟨succ - c.start, by omega, ?_⟩
    unfold findSuccessor other
    simp only
    split_ifs <;> omega
  · by_cases hlast : succ + 1 = c.start + c.size
    · refine ⟨0, by omega, ?_⟩
      unfold findSuccessor other
      simp only
      split_ifs <;> omega
    · refine ⟨succ - c.start, by omega, ?_⟩
      unfold findSuccessor other
      simp only
      split_ifs <;> omega
  · refine ⟨succ - c.start - 1, by omega, ?_⟩
    unfold findSuccessor other
    simp only
    split_ifs <;> omega

lemma findSuccessor_next (hn : n ∈ range' c.start c.size) (hi : i < c.size - 1) :
    findSuccessor c n (other c n i + 1) = other c n ((i + 1) % (c.size - 1)) := by
  rw [mem_range'_1] at hn
  have hnext : (i + 1) % (c.size - 1) = if i + 1 = c.size - 1 then 0 else i + 1 := by
    split
    · rename_i heq
      rw [heq, Nat.mod_self]
    · exact Nat.mod_eq_of_lt (by omega)
  rw [hnext]
  unfold findSuccessor other
  simp only
  split_ifs <;> omega

lemma addSuccessor_length (k : ℕ) (x : ℕ × List ℕ) :
    (loop (addSuccessor c n) k x).2.length = x.2.length + k := by
  refine loop_inv (fun j (y : ℕ × List ℕ) => y.2.length = x.2.length + j) rfl fun j y _ hy => ?_
  rw [addSuccessor, length_append, hy]
  rfl

lemma walk_eq (hn : n ∈ range' c.start c.size) (hsucc : findSuccessor c n succ = other c n i)
    (hi : i < c.size - 1) (k : ℕ) :
    (loop (addSuccessor c n) k (succ, [])).2 = (range k).map fun j => other c n ((i + j) % (c.size - 1)) := by
  refine (loop_inv (fun k (x : ℕ × List ℕ) => findSuccessor c n x.1 = other c n ((i + k) % (c.size - 1)) ∧
    x.2 = (range k).map fun j => other c n ((i + j) % (c.size - 1))) ?_ ?_).2
  · rw [Nat.add_zero, Nat.mod_eq_of_lt hi]
    exact ⟨hsucc, rfl⟩
  · rintro k x - ⟨hnext, hlist⟩
    have hlt : (i + k) % (c.size - 1) < c.size - 1 := Nat.mod_lt _ (by omega)
    constructor
    · rw [addSuccessor, hnext, findSuccessor_next hn hlt, Nat.mod_add_mod, Nat.add_assoc]
    · rw [addSuccessor, hnext, hlist, range_succ, map_append]
      rfl

lemma walk_spec (hn : n ∈ range' c.start c.size) (hsucc : succ ∈ range' c.start c.size) {k : ℕ}
    (hk : k ≤ c.size - 1) :
    (loop (addSuccessor c n) k (succ, [])).2.Nodup ∧
      ∀ m ∈ (loop (addSuccessor c n) k (succ, [])).2, m ≠ n ∧ m ∈ range' c.start c.size := by
  by_cases hsize : 2 ≤ c.size
  · obtain ⟨i, hi, hfirst⟩ := findSuccessor_first hn hsucc hsize
    rw [walk_eq hn hfirst hi]
    constructor
    · refine List.Nodup.map_on (fun j hj j' hj' heq => ?_) nodup_range
      rw [mem_range] at hj hj'
      exact Nat.ModEq.eq_of_lt_of_lt (Nat.ModEq.add_left_cancel' i (other_inj.mp heq)) (by omega) (by omega)
    · intro m hm
      obtain ⟨j, -, rfl⟩ := mem_map.mp hm
      exact other_mem (Nat.mod_lt _ (by omega))
  · obtain rfl : k = 0 := by omega
    simp

lemma length_lt_of_others {l : List ℕ} (hn : n ∈ range' c.start c.size) (hnodup : l.Nodup)
    (hmem : ∀ m ∈ l, m ≠ n ∧ m ∈ range' c.start c.size) : l.length < c.size := by
  have hsub : n :: l ⊆ range' c.start c.size := by
    intro m hm
    rcases mem_cons.mp hm with rfl | hm
    · exact hn
    · exact (hmem m hm).2
  have hcons : (n :: l).Nodup := nodup_cons.mpr ⟨fun h => (hmem n h).1 rfl, hnodup⟩
  have hle := (hcons.subperm hsub).length_le
  rw [length_cons, length_range'] at hle
  exact hle

end SmcPim.Topology
