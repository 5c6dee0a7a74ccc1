import SmcPim.SkipList.Model

/-! # The levels of the skip list, and the search -/

namespace SmcPim.SkipList

open List

open FlatCombining (Malloc Slot Op intMin intMax)

namespace Nodes

variable {α : Type} {n n' : Nodes α} {l xs ys zs : List α} {k : ℤ} {p c x : α} {level fuel : ℕ}

def atLevel (n : Nodes α) (level : ℕ) (l : List α) : List α := l.filter fun x => level < n.topLevel x

@[simp] lemma mem_atLevel : x ∈ n.atLevel level l ↔ x ∈ l ∧ level < n.topLevel x := by
  simp [atLevel]

lemma atLevel_append (xs ys : List α) :
    n.atLevel level (xs ++ ys) = n.atLevel level xs ++ n.atLevel level ys :=
  filter_append ..

lemma atLevel_zero (h : ∀ x ∈ l, 0 < n.topLevel x) : n.atLevel 0 l = l :=
  filter_eq_self.mpr fun x hx => decide_eq_true (h x hx)

lemma atLevel_congr (h : ∀ x ∈ l, n'.topLevel x = n.topLevel x) :
    n'.atLevel level l = n.atLevel level l :=
  filter_congr fun x hx => by rw [h x hx]

structure Sorted (n : Nodes α) (l : List α) : Prop where
  linked : ∀ level < n.maxLevel,
    Chain (fun x => n.next x level) n.head (n.head :: n.atLevel level l) n.tail
  ascending : Ascending n.key (n.head :: l ++ [n.tail])
  headKey : n.key n.head = intMin
  tailKey : n.key n.tail = intMax
  headTop : n.topLevel n.head = n.maxLevel
  tailTop : n.topLevel n.tail = n.maxLevel
  heights : ∀ x ∈ l, 0 < n.topLevel x ∧ n.topLevel x < n.maxLevel
  used : ∀ x ∈ n.head :: l ++ [n.tail], x ∈ n.used

lemma Sorted.inner (h : n.Sorted l) : Ascending n.key l :=
  h.ascending.sublist
    ((sublist_append_left l _).trans (sublist_cons_self n.head (l ++ [n.tail])))

lemma Sorted.between (h : n.Sorted l) (hx : x ∈ l) : intMin < n.key x ∧ n.key x < intMax := by
  obtain ⟨hhead, hrest⟩ := pairwise_cons.mp h.ascending
  constructor
  · rw [← h.headKey]
    exact hhead x (mem_append_left _ hx)
  · rw [← h.tailKey]
    exact (pairwise_append.mp hrest).2.2 x hx n.tail (mem_singleton_self _)

lemma Sorted.length_le [DecidableEq α] (h : n.Sorted l) : l.length ≤ n.used.length := by
  have hnodup : l.Nodup := h.inner.nodup_keys.of_map
  have hsub : l ⊆ n.used := fun x hx => h.used x (by simp [hx])
  exact (hnodup.subperm hsub).length_le

section
variable [DecidableEq α]

lemma walk_eq (h : Chain (fun x => n.next x level) p (p :: zs) c)
    (hzs : ∀ z ∈ zs, n.key z < k ∧ z ∈ n.used) (hc : k ≤ n.key c) (hused : c ∈ n.used)
    (hfuel : zs.length < fuel) : n.walk k level fuel p = some ((p :: zs).getLast (by simp), c) := by
  induction zs generalizing p fuel with
  | nil =>
    obtain ⟨fuel, rfl⟩ : ∃ m, fuel = m + 1 := ⟨fuel - 1, by simp at hfuel; omega⟩
    obtain rfl : n.next p level = c := by simpa using h
    rw [walk, if_pos hused, if_neg (not_lt.mpr hc)]
    rfl
  | cons z zs ih =>
    obtain ⟨fuel, rfl⟩ : ∃ m, fuel = m + 1 := ⟨fuel - 1, by simp at hfuel; omega⟩
    obtain ⟨-, h⟩ := Chain.cons_iff.mp h
    obtain ⟨hz, -⟩ := Chain.cons_iff.mp h
    obtain ⟨hkey, hmem⟩ := hzs z mem_cons_self
    rw [hz] at h
    rw [walk, hz, if_pos hmem, if_pos hkey,
      ih h (fun y hy => hzs y (mem_cons_of_mem z hy)) (by simpa using hfuel)]
    rfl

end

/-! ## All levels -/

structure Divided (n : Nodes α) (k : ℤ) (xs ys : List α) : Prop where
  sorted : n.Sorted (xs ++ ys)
  parted : Parted n.key k xs ys
  range : intMin < k ∧ k < intMax

lemma Sorted.divided (h : n.Sorted l) (hk : intMin < k ∧ k < intMax) :
    ∃ xs ys, l = xs ++ ys ∧ n.Divided k xs ys := by
  obtain ⟨xs, ys, rfl, hpart⟩ := h.inner.parted k
  exact ⟨xs, ys, rfl, h, hpart, hk⟩

def hit (n : Nodes α) (k : ℤ) (ys : List α) : Option α := ys.head?.filter fun y => n.key y = k

lemma hit_eq_some : n.hit k ys = some x ↔ ∃ zs, ys = x :: zs ∧ n.key x = k := by
  unfold hit
  cases ys with
  | nil => simp
  | cons y ys =>
    rw [head?_cons, Option.filter_eq_some_iff, Option.some.injEq, decide_eq_true_eq]
    constructor
    · rintro ⟨rfl, hk⟩
      exact ⟨ys, rfl, hk⟩
    · rintro ⟨zs, heq, hk⟩
      exact ⟨(cons.inj heq).1, hk⟩

namespace Divided

lemma hit_of_mem (h : n.Divided k xs ys) (hx : x ∈ ys) (hk : n.key x = k) : n.hit k ys = some x := by
  cases ys with
  | nil => simp at hx
  | cons y ys =>
    have hasc := h.sorted.inner.sublist (sublist_append_right xs (y :: ys))
    refine hit_eq_some.mpr ⟨ys, ?_, hk⟩
    rcases mem_cons.mp hx with rfl | hx
    · rfl
    · have := (pairwise_cons.mp hasc).1 x hx
      have := h.parted.above y mem_cons_self
      omega

lemma exists_succ (h : n.Divided k xs ys) (level : ℕ) :
    ∃ c vs, n.atLevel level ys ++ [n.tail] = c :: vs ∧ k ≤ n.key c ∧ c ∈ n.used ∧
      (n.key c = k → c ∈ ys) := by
  cases hys : n.atLevel level ys with
  | nil =>
    have htail := h.sorted.tailKey
    have hk := h.range.2
    exact ⟨n.tail, [], rfl, by omega, h.sorted.used n.tail (by simp), fun heq => by omega⟩
  | cons c vs =>
    have hc : c ∈ ys := (mem_atLevel.mp (hys ▸ mem_cons_self : c ∈ n.atLevel level ys)).1
    exact ⟨c, vs ++ [n.tail], rfl, h.parted.above c hc, h.sorted.used c (by simp [hc]), fun _ => hc⟩

lemma walk_eq [DecidableEq α] (h : n.Divided k xs ys) (hlevel : level < n.maxLevel)
    (hp : p ∈ n.head :: n.atLevel level xs) :
    ∃ q us c vs, n.walk k level (n.used.length + 1) p = some (q, c) ∧
      n.head :: n.atLevel level xs = us ++ [q] ∧ n.atLevel level ys ++ [n.tail] = c :: vs ∧
      (n.key c = k → c ∈ ys) := by
  obtain ⟨c, vs, hvs, hkc, hused, hmem⟩ := h.exists_succ level
  obtain ⟨us, zs, hus⟩ := append_of_mem hp
  have hlinked := h.sorted.linked level hlevel
  rw [atLevel_append, ← cons_append, hus] at hlinked
  obtain ⟨d, hleft, hright⟩ := Chain.append_iff.mp hlinked
  have hd : d = c := by
    cases hys : n.atLevel level ys with
    | nil =>
      rw [hys] at hvs hright
      simp only [nil_append, cons.injEq] at hvs
      rw [Chain.nil_iff.mp hright, hvs.1]
    | cons y ys =>
      rw [hys] at hvs hright
      rw [(Chain.cons_iff.mp hright).1]
      exact (cons.inj hvs).1
  subst hd
  obtain ⟨e, -, hzs⟩ := Chain.append_iff.mp hleft
  obtain ⟨rfl, -⟩ := Chain.cons_iff.mp hzs
  have hbelow : ∀ z ∈ zs, n.key z < k ∧ z ∈ n.used := by
    intro z hz
    have hz' : z ∈ n.head :: n.atLevel level xs := by
      rw [hus]
      simp [hz]
    rcases mem_cons.mp hz' with rfl | hz'
    · exact ⟨by rw [h.sorted.headKey]; exact h.range.1, h.sorted.used _ (by simp)⟩
    · have hxs := (mem_atLevel.mp hz').1
      exact ⟨h.parted.below z hxs, h.sorted.used z (by simp [hxs])⟩
  have hlen : zs.length < n.used.length + 1 := by
    have h1 := congrArg length hus
    have h2 := h.sorted.length_le
    have h3 : (n.atLevel level xs).length ≤ xs.length := length_filter_le _ _
    simp only [length_cons, length_append] at h1 h2
    omega
  refine ⟨_, us ++ (e :: zs).dropLast, d, vs, Nodes.walk_eq hzs hbelow hkc hused hlen, ?_, hvs, hmem⟩
  rw [hus, append_assoc, dropLast_append_getLast]

lemma arrays (h : n.Divided k xs ys) (P S : ℕ → α) (draws : ℕ) :
    { n with preds := P, succs := S, draws := draws }.Divided k xs ys :=
  ⟨⟨h.sorted.linked, h.sorted.ascending, h.sorted.headKey, h.sorted.tailKey, h.sorted.headTop,
    h.sorted.tailTop, h.sorted.heights, h.sorted.used⟩, h.parted, h.range⟩

end Divided

structure Around (n : Nodes α) (xs ys : List α) (level : ℕ) : Prop where
  pred : ∃ us, n.head :: n.atLevel level xs = us ++ [n.preds level]
  succ : ∃ vs, n.atLevel level ys ++ [n.tail] = n.succs level :: vs

lemma Divided.mem_lower {us : List α} {i : ℕ} (hi : i < level)
    (hus : n.head :: n.atLevel level xs = us ++ [p]) : p ∈ n.head :: n.atLevel i xs := by
  have hp : p ∈ n.head :: n.atLevel level xs := by
    rw [hus]
    simp
  rw [mem_cons, mem_atLevel] at hp ⊢
  rcases hp with hp | ⟨hp, htop⟩
  · exact .inl hp
  · exact .inr ⟨hp, by omega⟩

lemma Divided.found_eq [DecidableEq α] {found : Option α} {vs : List α} (h : n.Divided k xs ys)
    (hfound : found = none ∨ found = n.hit k ys)
    (hvs : n.atLevel level ys ++ [n.tail] = c :: vs) (hc : n.key c = k → c ∈ ys) :
    ((if found = none ∧ k = n.key c then some c else found) = none ∨
      (if found = none ∧ k = n.key c then some c else found) = n.hit k ys) ∧
    (level = 0 → (if found = none ∧ k = n.key c then some c else found) = n.hit k ys) := by
  by_cases hnone : found = none ∧ k = n.key c
  · rw [if_pos hnone]
    have hhit := h.hit_of_mem (hc hnone.2.symm) hnone.2.symm
    rw [hhit]
    exact ⟨.inr rfl, fun _ => rfl⟩
  · rw [if_neg hnone]
    refine ⟨hfound, fun hzero => ?_⟩
    rcases hfound with rfl | hfound
    · subst hzero
      rw [atLevel_zero fun x hx => (h.sorted.heights x (mem_append_right _ hx)).1] at hvs
      cases hhit : n.hit k ys with
      | none => rfl
      | some y =>
        obtain ⟨zs, rfl, hy⟩ := hit_eq_some.mp hhit
        obtain rfl : y = c := (cons.inj hvs).1
        exact absurd ⟨rfl, hy.symm⟩ hnone
    · exact hfound

lemma Divided.findFrom_eq [DecidableEq α] {found : Option α} (h : n.Divided k xs ys)
    (hlevel : level ≤ n.maxLevel) (hp : ∀ i < level, p ∈ n.head :: n.atLevel i xs)
    (hfound : found = none ∨ found = n.hit k ys) :
    ∃ P S found', findFrom k level p found n = some ({ n with preds := P, succs := S }, found') ∧
      (∀ i < level, { n with preds := P, succs := S }.Around xs ys i) ∧
      (∀ i, level ≤ i → P i = n.preds i ∧ S i = n.succs i) ∧
      (level = 0 → found' = found) ∧ (0 < level → found' = n.hit k ys) := by
  induction level generalizing n p found with
  | zero =>
    exact ⟨n.preds, n.succs, found, rfl, fun i hi => by omega, fun i _ => ⟨rfl, rfl⟩, fun _ => rfl,
      fun h0 => by omega⟩
  | succ level ih =>
    obtain ⟨q, us, c, vs, hwalk, hus, hvs, hc⟩ := h.walk_eq (by omega) (hp level (by omega))
    obtain ⟨hor, hzero⟩ := h.found_eq hfound hvs hc
    have h₁ := h.arrays (Function.update n.preds level q) (Function.update n.succs level c) n.draws
    obtain ⟨P, S, found', hfind, haround, hkeep, hsame, hhit⟩ :=
      ih h₁ (by dsimp only; omega) (fun i hi => mem_lower hi hus) hor
    dsimp only at hkeep
    refine ⟨P, S, found', ?_, ?_, ?_, fun h0 => by omega, fun _ => ?_⟩
    · unfold findFrom
      rw [hwalk, Option.bind_some]
      exact hfind
    · intro i hi
      by_cases hil : i = level
      · subst hil
        obtain ⟨hP, hS⟩ := hkeep i (le_refl i)
        rw [Function.update_self] at hP hS
        exact ⟨⟨us, by dsimp only; rw [hP]; exact hus⟩, ⟨vs, by dsimp only; rw [hS]; exact hvs⟩⟩
      · exact haround i (by omega)
    · intro i hi
      obtain ⟨hP, hS⟩ := hkeep i (by omega)
      rw [Function.update_of_ne (by omega)] at hP hS
      exact ⟨hP, hS⟩
    · by_cases h0 : level = 0
      · rw [hsame h0]
        exact hzero h0
      · exact hhit (by omega)

lemma Divided.find_eq [DecidableEq α] (h : n.Divided k xs ys) (hmax : 0 < n.maxLevel) :
    ∃ P S, find k n = some ({ n with preds := P, succs := S }, n.hit k ys) ∧
      ∀ i < n.maxLevel, { n with preds := P, succs := S }.Around xs ys i := by
  obtain ⟨P, S, found, hfind, haround, -, -, hhit⟩ :=
    h.findFrom_eq (le_refl _) (fun i _ => mem_cons_self) (.inl rfl)
  refine ⟨P, S, ?_, haround⟩
  rw [← hhit hmax]
  exact hfind

end Nodes

end SmcPim.SkipList
