import SmcPim.Stats.Model

/-! # Which values are found -/

namespace SmcPim.Stats

open List Function Option

open Timestamp (strcomp strcomp_iff)

variable {words : List (List Char)} {w : List Char} {n p q i : ℕ} {s : Scan}

def placeFrom (words : List (List Char)) (w : List Char) (n : ℕ) : Option ℕ :=
  ((words.drop n).findIdx? (· = w)).map (n + ·)

def place (words : List (List Char)) : ℕ → Option ℕ
  | 0 => placeFrom words (name 0) 0
  | i + 1 => (place words i).bind fun p => placeFrom words (name (i + 1)) (p + 2)

def valueAt (words : List (List Char)) (p : Option ℕ) : List Char := (p.bind fun p => words[p + 1]?).getD []

def InOrder (words : List (List Char)) (i : ℕ) : Prop :=
  ∀ k < i, ∃ p q, placeFrom words (name k) 0 = some p ∧ placeFrom words (name (k + 1)) 0 = some q ∧ p + 2 ≤ q

/-! ## Places -/

lemma placeFrom_of_eq (h : words[n]? = some w) : placeFrom words w n = some n := by
  obtain ⟨hn, rfl⟩ := List.getElem?_eq_some_iff.mp h
  rw [placeFrom, List.drop_eq_getElem_cons hn, List.findIdx?_cons]
  simp

lemma placeFrom_of_ne {w' : List Char} (h : words[n]? = some w') (hne : w' ≠ w) :
    placeFrom words w n = placeFrom words w (n + 1) := by
  obtain ⟨hn, rfl⟩ := List.getElem?_eq_some_iff.mp h
  rw [placeFrom, placeFrom, List.drop_eq_getElem_cons hn, List.findIdx?_cons]
  simp only [hne, decide_false, Bool.false_eq_true, if_false, Option.map_map]
  congr 1
  funext k
  simp only [comp_apply]
  omega

lemma placeFrom_length (w : List Char) (hn : words.length ≤ n) : placeFrom words w n = none := by
  rw [placeFrom, drop_eq_nil_of_le hn]
  rfl

lemma placeFrom_of_le (h : placeFrom words w 0 = some q) (hn : n ≤ q) :
    placeFrom words w n = some q := by
  induction n with
  | zero => exact h
  | succ n ih =>
    have hq := ih (Nat.le_of_succ_le hn)
    cases hword : words[n]? with
    | none =>
      rw [placeFrom_length w (getElem?_eq_none_iff.mp hword)] at hq
      cases hq
    | some w' =>
      by_cases heq : w' = w
      · rw [placeFrom_of_eq (heq ▸ hword)] at hq
        have := some.inj hq
        omega
      · rw [← placeFrom_of_ne hword heq, hq]

lemma place_none_of_le (h : place words i = none) {k : ℕ} (hk : i ≤ k) : place words k = none := by
  induction k, hk using Nat.le_induction with
  | base => exact h
  | succ k hk ih => rw [place, ih, bind_none]

lemma place_of_inOrder (h : InOrder words i) : place words i = placeFrom words (name i) 0 := by
  induction i with
  | zero => rfl
  | succ i ih =>
    obtain ⟨p, q, hp, hq, hle⟩ := h i i.lt_succ_self
    have hplace : place words i = some p := (ih fun k hk => h k (hk.trans i.lt_succ_self)).trans hp
    rw [place, hplace, bind_some, placeFrom_of_le hq hle, hq]

/-! ## The scan -/

structure Scan.Inv (words : List (List Char)) (n : ℕ) (s : Scan) : Prop where
  le : s.i ≤ 19
  found : ∀ k < s.i, s.results k = valueAt words (place words k)
  blank : s.i < 19 → ∀ k ≥ s.i, s.check k = 0 ∧ s.results k = []
  next : s.i < 19 → place words s.i = placeFrom words (name s.i) n

lemma Scan.inv_start (words : List (List Char)) : Scan.start.Inv words 0 :=
  ⟨Nat.zero_le _, fun k hk => absurd hk (Nat.not_lt_zero k), fun _ _ _ => ⟨rfl, rfl⟩, fun _ => rfl⟩

lemma Scan.Inv.skip (h : s.Inv words n) (hw : words[n]? = some w) (hne : s.i < 19 → w ≠ name s.i) :
    s.Inv words (n + 1) :=
  { h with next := fun hi => (h.next hi).trans (placeFrom_of_ne hw (hne hi)) }

lemma Scan.found_results (s : Scan) (value : List Char) :
    (s.found value).results = update s.results s.i value := rfl

lemma Scan.found_check (s : Scan) (value : List Char) :
    (s.found value).check = update s.check s.i 1 := rfl

lemma Scan.found_i (s : Scan) (value : List Char) :
    (s.found value).i = if s.i < 19 then s.i + 1 else 19 := rfl

lemma Scan.Inv.take {value : List Char} (h : s.Inv words n) (hw : words[n]? = some (name s.i))
    (hvalue : s.i < 19 → value = words[n + 1]?.getD []) : (s.found value).Inv words (n + 2) := by
  by_cases hi : s.i < 19
  · have hplace : place words s.i = some n := (h.next hi).trans (placeFrom_of_eq hw)
    have hnext : (s.found value).i = s.i + 1 := (s.found_i _).trans (if_pos hi)
    refine ⟨hnext.trans_le hi, fun k hk => ?_, fun _ k hk => ?_, fun _ => ?_⟩
    · rw [hnext] at hk
      rw [found_results]
      rcases Nat.lt_succ_iff_lt_or_eq.mp hk with hlt | rfl
      · rw [update_of_ne hlt.ne]
        exact h.found k hlt
      · rw [update_self, hplace, hvalue hi]
        rfl
    · rw [hnext] at hk
      have hne : k ≠ s.i := (Nat.lt_of_succ_le hk).ne'
      rw [found_check, found_results, update_of_ne hne, update_of_ne hne]
      exact h.blank hi k (Nat.le_of_succ_le hk)
    · rw [hnext, place, hplace, bind_some]
  · have hlast : s.i = 19 := le_antisymm h.le (not_lt.mp hi)
    have hnext : (s.found value).i = 19 := (s.found_i _).trans (if_neg hi)
    have hstop : ¬(s.found value).i < 19 := by omega
    refine ⟨hnext.le, fun k hk => ?_, fun h => absurd h hstop, fun h => absurd h hstop⟩
    rw [hnext] at hk
    rw [found_results, update_of_ne (by omega)]
    exact h.found k (by omega)

variable {rest : List (List Char)}

lemma getElem?_of_drop {w : List Char} (h : words.drop n = w :: rest) :
    words[n]? = some w ∧ words.drop (n + 1) = rest := by
  constructor
  · rw [← head?_drop, h, head?_cons]
  · rw [← drop_drop, h, drop_one, tail_cons]

lemma Scan.Inv.run (h : s.Inv words n) (hrest : words.drop n = rest) :
    ∃ m, words.length ≤ m ∧ (s.run rest).Inv words m := by
  fun_induction Scan.run s rest generalizing n with
  | case1 s => exact ⟨n, drop_eq_nil_iff.mp hrest, h⟩
  | case2 s temp hcomp _ =>
    obtain ⟨hword, hnil⟩ := getElem?_of_drop hrest
    rw [strcomp_iff.mp hcomp] at hword
    have hlength : words.length ≤ n + 1 := drop_eq_nil_iff.mp hnil
    refine ⟨n + 2, by omega, h.take hword fun hi => ?_⟩
    rw [getElem?_eq_none hlength]
    exact (h.blank hi s.i le_rfl).2
  | case3 s temp hcomp _ value rest ih =>
    obtain ⟨hword, htail⟩ := getElem?_of_drop hrest
    rw [strcomp_iff.mp hcomp] at hword
    obtain ⟨hvalue, htail⟩ := getElem?_of_drop htail
    exact ih (h.take hword fun _ => by rw [hvalue, getD_some]) htail
  | case4 s temp rest hcomp hcheck ih =>
    obtain ⟨hword, htail⟩ := getElem?_of_drop hrest
    exact ih (h.skip hword fun hi => absurd (h.blank hi s.i le_rfl).1 hcheck) htail
  | case5 s temp rest hcomp ih =>
    obtain ⟨hword, htail⟩ := getElem?_of_drop hrest
    exact ih (h.skip hword fun _ heq => hcomp (strcomp_iff.mpr heq)) htail

lemma results_eq (words : List (List Char)) (i : ℕ) (hi : i < 19) :
    (Scan.start.run words).results i = valueAt words (place words i) := by
  have hrest : words.drop 0 = words := rfl
  obtain ⟨m, hm, h⟩ := (Scan.inv_start words).run hrest
  by_cases hfound : i < (Scan.start.run words).i
  · exact h.found i hfound
  · have hle := not_lt.mp hfound
    have hnone : place words (Scan.start.run words).i = none :=
      (h.next (by omega)).trans (placeFrom_length _ hm)
    rw [(h.blank (by omega) i hle).2, place_none_of_le hnone hle]
    rfl

/-- Each name is reported with the word behind its first occurrence behind the value before it. -/
theorem pullStats_values (words : List (List Char)) (i : Fin 19) :
    (pullStats words).1[i]? = some (name i) ∧
      (pullStats words).2[i]? = some (valueAt words (place words i)) ∧
      (InOrder words i → (pullStats words).2[i]? = some (valueAt words (placeFrom words (name i) 0))) := by
  have hrange : (List.range (listSize - 1))[i.val]? = some i.val := List.getElem?_range i.isLt
  have hvalue : (pullStats words).2[i.val]? = some (valueAt words (place words i)) := by
    rw [pullStats, List.getElem?_map, hrange, Option.map_some, results_eq words i i.isLt]
  refine ⟨?_, hvalue, fun horder => ?_⟩
  · rw [pullStats, Fin.getElem?_fin, List.getElem?_map, hrange, Option.map_some]
  · rw [Fin.getElem?_fin, hvalue, place_of_inOrder horder]

theorem pullStats_values_inOrder :
    let words := [name 0, ['7'], name 1, ['5']]
    (pullStats words).2[1]? = some ['5'] := by
  have horder : InOrder [name 0, ['7'], name 1, ['5']] 1 := by
    intro k hk
    obtain rfl : k = 0 := Nat.lt_one_iff.mp hk
    exact ⟨0, 2, by decide +kernel, by decide +kernel, le_rfl⟩
  exact ((pullStats_values [name 0, ['7'], name 1, ['5']] 1).2.2 horder).trans (by decide +kernel)

/-- The name that is listed first comes last in the file, and the value of the other one is lost. -/
theorem value_lost :
    let words := [name 1, ['5'], name 0, ['7']]
    placeFrom words (name 1) 0 = some 0 ∧ words[1]? = some ['5'] ∧ (pullStats words).2[1]? = some [] := by
  decide +kernel

end SmcPim.Stats
