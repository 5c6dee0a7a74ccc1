import Mathlib

/-! # Lists kept in step -/

namespace SmcPim.Lists

open List

variable {α β : Type*}

lemma zip_eraseIdx (xs : List α) (ys : List β) (i : Nat) :
    (xs.eraseIdx i).zip (ys.eraseIdx i) = (xs.zip ys).eraseIdx i := by
  induction xs generalizing ys i with
  | nil => simp
  | cons x xs ih =>
    rcases ys with _ | ⟨y, ys⟩
    · simp
    · rcases i with _ | i
      · rfl
      · simp [ih]

variable {xs : List α} {i : Nat} {p : α → Bool} {x y : α}

lemma zip_getElem? {ys : List β} (hx : i < xs.length) (hy : i < ys.length) (x : α) (y : β) :
    (xs.zip ys)[i]? = some (xs.getD i x, ys.getD i y) := by
  rw [getElem?_eq_getElem (by rw [length_zip]; omega), getElem_zip,
    getD_eq_getElem _ _ hx, getD_eq_getElem _ _ hy]

lemma findIdx?_lt (h : xs.findIdx? p = some i) : i < xs.length := by
  rw [findIdx?_eq_some_iff_getElem] at h
  exact h.1

lemma findIdx?_getD (h : xs.findIdx? p = some i) (x : α) : p (xs.getD i x) = true := by
  rw [findIdx?_eq_some_iff_getElem] at h
  obtain ⟨hi, hp, -⟩ := h
  rw [getD_eq_getElem _ _ hi]
  exact hp

lemma findIdx?_split (h : xs.findIdx? p = some i) :
    ∃ pre x post, xs = pre ++ x :: post ∧ pre.length = i ∧ p x = true ∧ ∀ y ∈ pre, ¬p y = true := by
  obtain ⟨hi, hp, hbefore⟩ := findIdx?_eq_some_iff_getElem.mp h
  refine ⟨xs.take i, xs[i], xs.drop (i + 1), ?_, ?_, hp, ?_⟩
  · rw [getElem_cons_drop, take_append_drop]
  · rw [length_take]
    omega
  · intro y hy
    obtain ⟨j, hj, rfl⟩ := mem_iff_getElem.mp hy
    rw [length_take] at hj
    rw [getElem_take]
    exact hbefore j (by omega)

lemma insertIdx_length_append (pre post : List α) (x : α) :
    (pre ++ post).insertIdx pre.length x = pre ++ x :: post := by
  induction pre with
  | nil => rfl
  | cons y pre ih => exact congrArg (y :: ·) ih

lemma map_set_of_eq {f : α → β} (h : xs[i]? = some x)
    (hf : f y = f x) : (xs.set i y).map f = xs.map f := by
  apply ext_getElem?
  intro j
  rw [getElem?_map, getElem?_map, getElem?_set]
  split
  · rename_i hij
    subst hij
    obtain ⟨hlt, -⟩ := List.getElem?_eq_some_iff.mp h
    rw [if_pos hlt, h, Option.map_some, Option.map_some, hf]
  · rfl

lemma perm_eraseIdx (h : xs[i]? = some x) : List.Perm (x :: xs.eraseIdx i) xs := by
  obtain ⟨hlt, rfl⟩ := List.getElem?_eq_some_iff.mp h
  exact List.getElem_cons_eraseIdx_perm hlt

lemma countP_le_one (hnodup : xs.Nodup)
    (h : ∀ x ∈ xs, ∀ y ∈ xs, p x = true → p y = true → x = y) : xs.countP p ≤ 1 := by
  rw [countP_eq_length_filter]
  rcases hf : xs.filter p with _ | ⟨a, _ | ⟨b, l⟩⟩
  · simp
  · simp
  · have hin : ∀ z ∈ a :: b :: l, z ∈ xs ∧ p z = true := by
      intro z hz
      rw [← hf] at hz
      exact mem_filter.mp hz
    have ha := hin a (by simp)
    have hb := hin b (by simp)
    have hd : (a :: b :: l).Nodup := hf ▸ hnodup.filter p
    have hab := h a ha.1 b hb.1 ha.2 hb.2
    rw [nodup_cons, hab] at hd
    exact absurd (mem_cons_self) hd.1

lemma eq_of_countP_le_one (h : xs.countP p ≤ 1)
    (hx : x ∈ xs) (hy : y ∈ xs) (hpx : p x = true) (hpy : p y = true) : x = y := by
  rw [countP_eq_length_filter] at h
  have hx' := mem_filter.mpr ⟨hx, hpx⟩
  have hy' := mem_filter.mpr ⟨hy, hpy⟩
  rcases hf : xs.filter p with _ | ⟨a, _ | ⟨b, l⟩⟩
  · rw [hf] at hx'
    exact absurd hx' not_mem_nil
  · rw [hf, mem_singleton] at hx' hy'
    exact hx'.trans hy'.symm
  · rw [hf] at h
    exact absurd h (by simp)

lemma eq_of_sum_le {f g : α → Nat} (hle : ∀ x ∈ xs, f x ≤ g x)
    (hsum : (xs.map g).sum ≤ (xs.map f).sum) : ∀ x ∈ xs, f x = g x := by
  induction xs with
  | nil => simp
  | cons a xs ih =>
    rw [forall_mem_cons] at hle ⊢
    have htail : (xs.map f).sum ≤ (xs.map g).sum := sum_le_sum hle.2
    rw [map_cons, map_cons, sum_cons, sum_cons] at hsum
    exact ⟨by omega, ih hle.2 (by omega)⟩

lemma countP_le_sum {q : β → α → Bool} {ys : List β}
    (h : ∀ x ∈ xs, p x = true → ∃ y ∈ ys, q y x = true) :
    xs.countP p ≤ (ys.map fun y => xs.countP (q y)).sum := by
  induction xs with
  | nil => simp
  | cons x xs ih =>
    rw [forall_mem_cons] at h
    have htail := ih h.2
    simp only [countP_cons, sum_map_add]
    split
    · obtain ⟨y, hy, hq⟩ := h.1 ‹_›
      have hone : 1 ≤ (ys.map fun y => if q y x = true then 1 else 0).sum :=
        le_sum_of_mem (mem_map.mpr ⟨y, hy, if_pos hq⟩)
      omega
    · omega

lemma foldl_min (f : Nat → Nat) (js : List Nat) (i : Nat) :
    ∃ j ∈ i :: js, js.foldl (fun (m : Nat × Nat) k => if f k < m.1 then (f k, k) else m) (f i, i) =
      (f j, j) ∧ ∀ k ∈ i :: js, f j ≤ f k := by
  induction js generalizing i with
  | nil => exact ⟨i, by simp, rfl, by simp⟩
  | cons a js ih =>
    rw [foldl_cons]
    split
    · rename_i hlt
      obtain ⟨j, hj, heq, hmin⟩ := ih a
      refine ⟨j, mem_cons_of_mem _ hj, heq, ?_⟩
      intro k hk
      rcases mem_cons.mp hk with rfl | hk
      · exact Nat.le_trans (hmin a (by simp)) (Nat.le_of_lt hlt)
      · exact hmin k hk
    · rename_i hge
      obtain ⟨j, hj, heq, hmin⟩ := ih i
      refine ⟨j, ?_, heq, ?_⟩
      · rcases mem_cons.mp hj with rfl | hj
        · simp
        · simp [hj]
      · intro k hk
        rcases mem_cons.mp hk with rfl | hk
        · exact hmin k (by simp)
        · rcases mem_cons.mp hk with rfl | hk
          · exact Nat.le_trans (hmin i (by simp)) (Nat.not_lt.mp hge)
          · exact hmin k (by simp [hk])

end SmcPim.Lists
