import Mathlib

/-! # Bit masks of several holders -/

namespace SmcPim.Masks

open BitVec

variable {w : Nat}

def orAll (ms : List (BitVec w)) : BitVec w := ms.foldr (· ||| ·) 0

def Apart (ms : List (BitVec w)) : Prop := ms.Pairwise fun a b => a &&& b = 0

lemma orAll_cons (m : BitVec w) (ms : List (BitVec w)) : orAll (m :: ms) = m ||| orAll ms := rfl

variable {ms ns : List (BitVec w)} {a b m : BitVec w}

lemma orAll_perm (h : ms.Perm ns) : orAll ms = orAll ns := by
  unfold orAll
  apply h.foldr_eq'
  intro a _ b _ c
  rw [← BitVec.or_assoc, BitVec.or_comm b a, BitVec.or_assoc]

lemma or_and_zero : m &&& (a ||| b) = 0 ↔ m &&& a = 0 ∧ m &&& b = 0 := by
  rw [and_or_distrib_left]
  exact or_eq_zero_iff

lemma and_orAll : m &&& orAll ms = 0 ↔ ∀ x ∈ ms, m &&& x = 0 := by
  induction ms with
  | nil => simp [orAll]
  | cons a ms ih => rw [orAll_cons, or_and_zero, ih, List.forall_mem_cons]

lemma or_and_not (h : m &&& a = 0) : (m ||| a) &&& ~~~m = a := by
  ext i hi
  have hbit : (m &&& a)[i] = (0#w)[i] := by rw [h]; rfl
  simp only [getElem_and, getElem_or, getElem_not, getElem_zero] at hbit ⊢
  revert hbit
  cases m[i] <;> simp

lemma orAll_leave (hperm : (m :: ns).Perm ms) (hms : Apart ms) : orAll ns = orAll ms &&& ~~~m := by
  have hns : Apart (m :: ns) :=
    (hperm.pairwise_iff fun {a b} hab => by rw [BitVec.and_comm]; exact hab).mpr hms
  rw [← orAll_perm hperm, orAll_cons, or_and_not]
  rw [and_orAll]
  exact (List.pairwise_cons.mp hns).1

lemma apart_cons (hm : orAll ms &&& m = 0) (hms : Apart ms) : Apart (m :: ms) := by
  rw [BitVec.and_comm, and_orAll] at hm
  exact List.pairwise_cons.mpr ⟨hm, hms⟩

lemma le_trans {c : BitVec w} (hab : a &&& ~~~b = 0) (hbc : b &&& ~~~c = 0) : a &&& ~~~c = 0 := by
  ext i hi
  have h1 : (a &&& ~~~b)[i] = (0#w)[i] := by rw [hab]; rfl
  have h2 : (b &&& ~~~c)[i] = (0#w)[i] := by rw [hbc]; rfl
  simp only [getElem_and, getElem_not, getElem_zero] at h1 h2
  show (a &&& ~~~c)[i] = (0#w)[i]
  simp only [getElem_and, getElem_not, getElem_zero]
  revert h1 h2
  cases a[i] <;> cases b[i] <;> simp

lemma Apart.length_le {n : Nat} (h : Apart ms) (hbit : ∀ x ∈ ms, ∃ i : Fin n, x.getLsbD i = true) :
    ms.length ≤ n := by
  cases ms with
  | nil => exact Nat.zero_le n
  | cons x ms =>
    have : Nonempty (Fin n) := ⟨(hbit x List.mem_cons_self).choose⟩
    choose! bit hbit using hbit
    have hnodup : ((x :: ms).map bit).Nodup := by
      refine List.pairwise_map.mpr (h.imp_of_mem ?_)
      intro a b ha hb hab heq
      have hzero : (a &&& b).getLsbD (bit a) = false := by simp [hab]
      rw [getLsbD_and, hbit a ha, heq, hbit b hb] at hzero
      exact absurd hzero (by decide)
    simpa using hnodup.length_le_card

end SmcPim.Masks
