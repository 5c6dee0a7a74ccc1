import Mathlib

/-! # Search with a queue -/

namespace SmcPim

open List Function Option

structure Search (V : Type*) where
  dist : V → Option ℕ
  pushed : List V
  popped : ℕ
  assigned : List (V × ℕ)

namespace Search

variable {V : Type*} [DecidableEq V]

def start (x : V) (s : Search V) : Search V :=
  ⟨Function.update s.dist x (some 0), [x], 0, s.assigned⟩

def look (d : ℕ) (s : Search V) (w : V) : Search V :=
  if s.dist w = none then
    ⟨Function.update s.dist w (some (d + 1)), s.pushed ++ [w], s.popped, s.assigned ++ [(w, d + 1)]⟩
  else s

def scan (d : ℕ) (ws : List V) (s : Search V) : Search V := ws.foldl (look d) s

variable (succ : V → List V)

def next (s : Search V) : Option (Search V) :=
  s.pushed[s.popped]?.map fun v =>
    scan ((s.dist v).getD 0) (succ v) { s with popped := s.popped + 1 }

def run : ℕ → Search V → Option (Search V)
  | 0, _ => none
  | fuel + 1, s =>
    match next succ s with
    | none => some s
    | some t => run fuel t

/-! ## What a search reaches -/

/-- From `x`, through nodes that were not seen before. -/
def Reach (seen : Set V) : V → V → Prop :=
  Relation.ReflTransGen fun v w => w ∈ succ v ∧ w ∉ seen

inductive Walk (x : V) : ℕ → V → Prop
  | nil : Walk x 0 x
  | snoc {d : ℕ} {v w : V} : Walk x d v → w ∈ succ v → Walk x (d + 1) w

def IsDist (x v : V) (d : ℕ) : Prop := Walk succ x d v ∧ ∀ e, Walk succ x e v → d ≤ e

omit [DecidableEq V] in
lemma walk_iff_reach {x v : V} :
    (∃ d, Walk succ x d v) ↔ Relation.ReflTransGen (fun v w => w ∈ succ v) x v := by
  constructor
  · rintro ⟨d, h⟩
    induction h with
    | nil => exact .refl
    | snoc _ hw ih => exact ih.tail hw
  · intro h
    induction h with
    | refl => exact ⟨0, .nil⟩
    | tail _ hw ih =>
      obtain ⟨d, hd⟩ := ih
      exact ⟨d + 1, hd.snoc hw⟩

/-! ## What is kept -/

variable {succ} {seen : Set V} {x v w : V} {s t : Search V} {d e : ℕ} {ws : List V}

/-- A search from `x` when the nodes in `seen` had been visited. -/
structure Inv (succ : V → List V) (seen : Set V) (x : V) (s : Search V) : Prop where
  first : x ∈ s.pushed
  nodup : s.pushed.Nodup
  visited : ∀ v, s.dist v ≠ none ↔ v ∈ seen ∨ v ∈ s.pushed
  reach : ∀ v ∈ s.pushed, Reach succ seen x v
  index : ∀ i v, s.pushed[i]? = some v → ∃ d ≤ i, s.dist v = some d
  popped : s.popped ≤ s.pushed.length

structure Grows (s t : Search V) : Prop where
  pushed : s.pushed <+: t.pushed
  dist : ∀ v d, s.dist v = some d → t.dist v = some d
  popped : t.popped = s.popped

section
omit [DecidableEq V]

lemma Grows.refl (s : Search V) : Grows s s := ⟨prefix_refl _, fun _ _ => id, rfl⟩

lemma Grows.trans {u : Search V} (h : Grows s t) (h' : Grows t u) : Grows s u :=
  ⟨h.pushed.trans h'.pushed, fun v d hd => h'.dist v d (h.dist v d hd), h'.popped.trans h.popped⟩

lemma Grows.getElem? (h : Grows s t) {i : ℕ} (hv : s.pushed[i]? = some v) :
    t.pushed[i]? = some v := by
  obtain ⟨ys, hys⟩ := h.pushed
  rw [← hys, List.getElem?_append_left (List.getElem?_eq_some_iff.mp hv).1, hv]

end

lemma look_grows (d : ℕ) (s : Search V) (w : V) : Grows s (look d s w) := by
  unfold look
  split
  · rename_i hw
    refine ⟨prefix_append _ _, fun v e he => ?_, rfl⟩
    have hne : v ≠ w := by
      rintro rfl
      simp [hw] at he
    exact (update_of_ne hne ..).trans he
  · exact .refl s

lemma look_visits (d : ℕ) (s : Search V) (w : V) : (look d s w).dist w ≠ none := by
  unfold look
  split
  · simp
  · assumption

lemma scan_induct (I : Search V → Prop) (h0 : I s) (hlook : ∀ s w, w ∈ ws → I s → I (look d s w)) :
    I (scan d ws s) := by
  unfold scan
  induction ws generalizing s with
  | nil => exact h0
  | cons w ws ih =>
    refine ih (hlook s w mem_cons_self h0) fun s w' hw' => hlook s w' (mem_cons_of_mem w hw')

lemma scan_grows (d : ℕ) (ws : List V) (s : Search V) : Grows s (scan d ws s) :=
  scan_induct (Grows s) (.refl s) fun t w _ h => h.trans (look_grows d t w)

lemma scan_visits (d : ℕ) (s : Search V) (hw : w ∈ ws) : (scan d ws s).dist w ≠ none := by
  obtain ⟨xs, ys, rfl⟩ := append_of_mem hw
  have happ : scan d (xs ++ w :: ys) s = scan d ys (look d (scan d xs s) w) := by
    unfold scan
    rw [foldl_append, foldl_cons]
  rw [happ]
  obtain ⟨e, he⟩ := ne_none_iff_exists'.mp (look_visits d (scan d xs s) w)
  simp [(scan_grows d ys _).dist w e he]

lemma Inv.start (seen : Set V) (hseen : ∀ v, s.dist v ≠ none ↔ v ∈ seen) :
    Inv succ seen x (start x s) where
  first := mem_singleton_self x
  nodup := nodup_singleton x
  visited := by
    intro v
    unfold Search.start
    by_cases hv : v = x
    · simp [hv]
    · simp [hv, hseen v]
  reach := by
    intro v hv
    rw [mem_singleton.mp hv]
    exact .refl
  index := by
    intro i v hv
    obtain ⟨rfl, rfl⟩ : i = 0 ∧ x = v := by
      cases i with
      | zero => simpa [Search.start] using hv
      | succ i => simp [Search.start] at hv
    exact ⟨0, le_refl 0, by simp [Search.start]⟩
  popped := Nat.zero_le _

variable {i fuel : ℕ}

lemma Inv.look (h : Inv succ seen x s) (hv : s.pushed[i]? = some v) (hd : s.dist v = some d)
    (hw : w ∈ succ v) : Inv succ seen x (look d s w) := by
  unfold Search.look
  split
  · rename_i hnone
    have hnew : w ∉ seen ∧ w ∉ s.pushed := by
      rw [← not_or, ← h.visited w, not_not]
      exact hnone
    have hmem : v ∈ s.pushed := mem_of_getElem? hv
    refine ⟨?_, ?_, ?_, ?_, ?_, ?_⟩
    · exact mem_append_left _ h.first
    · rw [nodup_append]
      refine ⟨h.nodup, nodup_singleton w, ?_⟩
      rintro a ha b hb rfl
      rw [mem_singleton.mp hb] at ha
      exact hnew.2 ha
    · intro u
      by_cases hu : u = w
      · simp [hu]
      · simp [hu, h.visited u]
    · intro u hu
      rcases mem_append.mp hu with hu | hu
      · exact h.reach u hu
      · rw [mem_singleton.mp hu]
        exact (h.reach v hmem).tail ⟨hw, hnew.1⟩
    · intro j u hu
      rw [getElem?_append] at hu
      split at hu
      · obtain ⟨e, he, hdist⟩ := h.index j u hu
        refine ⟨e, he, ?_⟩
        have hne : u ≠ w := by
          rintro rfl
          simp [hnone] at hdist
        dsimp only
        rw [update_of_ne hne, hdist]
      · rename_i hj
        obtain ⟨hlt, rfl⟩ := List.getElem?_eq_some_iff.mp hu
        rw [List.getElem_singleton]
        obtain ⟨e, he, hdist⟩ := h.index i v hv
        have hi := (List.getElem?_eq_some_iff.mp hv).1
        rw [hd, some.injEq] at hdist
        exact ⟨d + 1, by omega, by simp⟩
    · dsimp only
      rw [length_append]
      have := h.popped
      omega
  · exact h

omit [DecidableEq V] in
lemma Inv.length_le [Fintype V] (h : Inv succ seen x s) : s.pushed.length ≤ Fintype.card V :=
  h.nodup.length_le_card

lemma next_eq_some : next succ s = some t ↔ ∃ v, s.pushed[s.popped]? = some v ∧
    scan ((s.dist v).getD 0) (succ v) { s with popped := s.popped + 1 } = t := by
  unfold next
  rw [map_eq_some_iff]

lemma next_eq_none (h : s.popped ≤ s.pushed.length) :
    next succ s = none ↔ s.popped = s.pushed.length := by
  unfold next
  rw [map_eq_none_iff, getElem?_eq_none_iff]
  omega

omit [DecidableEq V] in
lemma Inv.pop (h : Inv succ seen x s) (hv : s.pushed[s.popped]? = some v) :
    Inv succ seen x { s with popped := s.popped + 1 } ∧ ∃ d, s.dist v = some d := by
  obtain ⟨d, -, hd⟩ := h.index _ v hv
  have hlt := (List.getElem?_eq_some_iff.mp hv).1
  exact ⟨{ h with popped := hlt }, d, hd⟩

lemma Inv.scan (h : Inv succ seen x s) (hv : s.pushed[i]? = some v) (hd : s.dist v = some d) :
    Inv succ seen x (scan d (succ v) s) := by
  have hboth : Inv succ seen x (Search.scan d (succ v) s) ∧ Grows s (Search.scan d (succ v) s) := by
    refine scan_induct (fun t => Inv succ seen x t ∧ Grows s t) ⟨h, .refl s⟩ ?_
    rintro t w hw ⟨ht, hgrows⟩
    exact ⟨ht.look (hgrows.getElem? hv) (hgrows.dist v d hd) hw, hgrows.trans (look_grows d t w)⟩
  exact hboth.1

def Closed (succ : V → List V) (s : Search V) : Prop :=
  ∀ i v, i < s.popped → s.pushed[i]? = some v → ∀ w ∈ succ v, s.dist w ≠ none

lemma next_grows (h : next succ s = some t) : Grows { s with popped := s.popped + 1 } t := by
  obtain ⟨v, -, rfl⟩ := next_eq_some.mp h
  exact scan_grows _ _ _

lemma Inv.next (h : Inv succ seen x s) (hs : next succ s = some t) : Inv succ seen x t := by
  obtain ⟨v, hv, rfl⟩ := next_eq_some.mp hs
  obtain ⟨hpop, d, hd⟩ := h.pop hv
  rw [hd]
  exact hpop.scan hv hd

lemma Closed.next (hclosed : Closed succ s) (hs : next succ s = some t) : Closed succ t := by
  intro i u hi hu w hw
  have hgrows := next_grows hs
  rw [hgrows.popped] at hi
  obtain ⟨v, hv, rfl⟩ := next_eq_some.mp hs
  have hlt := (List.getElem?_eq_some_iff.mp hv).1
  have hget : s.pushed[i]? = some u := by
    obtain ⟨ys, hys⟩ := hgrows.pushed
    rw [← hys, List.getElem?_append_left (by dsimp only at hi ⊢; omega)] at hu
    exact hu
  by_cases hlast : i = s.popped
  · subst hlast
    obtain rfl : u = v := some.inj (hget.symm.trans hv)
    exact scan_visits _ _ hw
  · obtain ⟨e, he⟩ := ne_none_iff_exists'.mp
      (hclosed i u (by dsimp only at hi; omega) hget w hw)
    rw [hgrows.dist w e he]
    simp

/-! ## Whole searches -/

lemma run_spec (I : Search V → Prop) (hI : ∀ s t, I s → next succ s = some t → I t) {N : ℕ}
    (hN : ∀ s, I s → s.popped ≤ s.pushed.length ∧ s.pushed.length ≤ N) (h : I s)
    (hfuel : N < fuel + s.popped) :
    ∃ t, run succ fuel s = some t ∧ I t ∧ t.popped = t.pushed.length := by
  induction fuel generalizing s with
  | zero =>
    have := hN s h
    omega
  | succ fuel ih =>
    unfold run
    rcases hs : next succ s with _ | t
    · exact ⟨s, rfl, h, (next_eq_none (hN s h).1).mp hs⟩
    · have hpopped := (next_grows hs).popped
      exact ih (hI s t h hs) (by rw [hpopped]; dsimp only; omega)

lemma run_pushed (h : run succ fuel s = some t) : s.pushed <+: t.pushed := by
  induction fuel generalizing s with
  | zero => simp [run] at h
  | succ fuel ih =>
    unfold run at h
    split at h
    · obtain rfl := some.inj h
      exact prefix_refl _
    · rename_i hs
      exact (next_grows hs).pushed.trans (ih h)

omit [DecidableEq V] in
lemma mem_pushed_iff (h : Inv succ seen x s) (hclosed : Closed succ s)
    (hend : s.popped = s.pushed.length) : v ∈ s.pushed ↔ Reach succ seen x v := by
  refine ⟨h.reach v, fun hreach => ?_⟩
  induction hreach with
  | refl => exact h.first
  | @tail v w _ hw ih =>
    obtain ⟨i, hi⟩ := mem_iff_getElem?.mp ih
    have hlt := (List.getElem?_eq_some_iff.mp hi).1
    have hvisited := hclosed i v (hend ▸ hlt) hi w hw.1
    exact ((h.visited w).mp hvisited).resolve_left hw.2

lemma run_reach [Fintype V] (succ : V → List V) (x : V) (hseen : ∀ v, s.dist v ≠ none ↔ v ∈ seen)
    (hfuel : Fintype.card V < fuel) :
    ∃ t, run succ fuel (start x s) = some t ∧ Inv succ seen x t ∧
      ∀ v, v ∈ t.pushed ↔ Reach succ seen x v := by
  have hI : ∀ s t, Inv succ seen x s ∧ Closed succ s → next succ s = some t →
      Inv succ seen x t ∧ Closed succ t :=
    fun s t h hs => ⟨h.1.next hs, h.2.next hs⟩
  have hclosed : Closed succ (start x s) := fun i v hi => by simp [start] at hi
  obtain ⟨t, hrun, ⟨hinv, hclosed⟩, hend⟩ := run_spec _ hI (fun s h => ⟨h.1.popped, h.1.length_le⟩)
    ⟨.start seen hseen, hclosed⟩ (by simpa [start] using hfuel)
  exact ⟨t, hrun, hinv, fun v => mem_pushed_iff hinv hclosed hend⟩

/-! ## Distances -/

structure Level (succ : V → List V) (x : V) (s : Search V) : Prop where
  first : s.dist x = some 0
  walk : ∀ v d, s.dist v = some d → Walk succ x d v
  sorted : ∀ i j : ℕ, ∀ v w d e, i ≤ j → s.pushed[i]? = some v → s.pushed[j]? = some w →
    s.dist v = some d → s.dist w = some e → d ≤ e
  band : ∀ i v d, s.popped ≤ i + 1 → s.pushed[i]? = some v → s.dist v = some d →
    ∀ w e, s.dist w = some e → e ≤ d + 1

def Near (succ : V → List V) (s : Search V) : Prop :=
  ∀ i v d, i < s.popped → s.pushed[i]? = some v → s.dist v = some d →
    ∀ w ∈ succ v, ∃ e ≤ d + 1, s.dist w = some e

lemma Level.start (hs : ∀ v, s.dist v ≠ none → v = x) : Level succ x (start x s) := by
  have hdist : ∀ v d, (Search.start x s).dist v = some d → v = x ∧ d = 0 := by
    intro v d hd
    by_cases hv : v = x
    · subst hv
      exact ⟨rfl, by simpa [Search.start, eq_comm] using hd⟩
    · have hold : s.dist v = some d := (update_of_ne hv ..).symm.trans hd
      exact absurd (hs v (by simp [hold])) hv
  refine ⟨by simp [Search.start], ?_, ?_, ?_⟩
  · intro v d hd
    obtain ⟨rfl, rfl⟩ := hdist v d hd
    exact .nil
  · intro i j v w d e _ _ _ hd he
    rw [(hdist v d hd).2]
    exact Nat.zero_le e
  · intro i v d _ _ hd w e he
    rw [(hdist w e he).2]
    exact Nat.zero_le _

section
variable (h : Level succ x s) (hinv : Inv succ seen x s)
include h hinv

lemma Level.look {j : ℕ} (hj : s.popped = j + 1) (hv : s.pushed[j]? = some v)
    (hd : s.dist v = some d) (hw : w ∈ succ v) : Level succ x (look d s w) := by
  unfold Search.look
  split
  · rename_i hnone
    have hcur : ∀ u e, s.dist u = some e → e ≤ d + 1 := h.band j v d hj.le hv hd
    -- What is at a place and visited was there before, or it is `w`.
    have hplace : ∀ i u e, (s.pushed ++ [w])[i]? = some u →
        update s.dist w (some (d + 1)) u = some e →
        s.pushed[i]? = some u ∧ s.dist u = some e ∨ s.pushed.length ≤ i ∧ e = d + 1 := by
      intro i u e hu he
      rw [getElem?_append] at hu
      split at hu
      · have hne : u ≠ w := by
          rintro rfl
          obtain ⟨e', -, he'⟩ := hinv.index i u hu
          simp [hnone] at he'
        rw [update_of_ne hne] at he
        exact .inl ⟨hu, he⟩
      · rename_i hi
        rw [mem_singleton.mp (mem_of_getElem? hu), update_self,
          some.injEq] at he
        exact .inr ⟨not_lt.mp hi, he.symm⟩
    have hupdate : ∀ u e, update s.dist w (some (d + 1)) u = some e →
        s.dist u = some e ∨ u = w ∧ e = d + 1 := by
      intro u e he
      by_cases hu : u = w
      · rw [hu, update_self, some.injEq] at he
        exact .inr ⟨hu, he.symm⟩
      · rw [update_of_ne hu] at he
        exact .inl he
    have hjlt := (List.getElem?_eq_some_iff.mp hv).1
    refine ⟨?_, ?_, ?_, ?_⟩
    · have hne : x ≠ w := by
        rintro rfl
        exact absurd h.first (by simp [hnone])
      exact (update_of_ne hne ..).trans h.first
    · intro u e he
      rcases hupdate u e he with he | ⟨rfl, rfl⟩
      · exact h.walk u e he
      · exact (h.walk v d hd).snoc hw
    · intro i k u u' e e' hik hu hu' he he'
      rcases hplace k u' e' hu' he' with ⟨hu', he'⟩ | ⟨hk, rfl⟩
      · have hlt := (List.getElem?_eq_some_iff.mp hu').1
        rcases hplace i u e hu he with ⟨hu, he⟩ | ⟨hi, -⟩
        · exact h.sorted i k u u' e e' hik hu hu' he he'
        · omega
      · rcases hupdate u e he with he | ⟨-, rfl⟩
        · exact hcur u e he
        · exact le_refl _
    · intro i u e hi hu he u' e' he'
      rcases hplace i u e hu he with ⟨hu, he⟩ | ⟨-, rfl⟩
      · rcases hupdate u' e' he' with he' | ⟨-, rfl⟩
        · exact h.band i u e hi hu he u' e' he'
        · have := h.sorted j i v u d e (by dsimp only at hi; omega) hv hu hd he
          omega
      · rcases hupdate u' e' he' with he' | ⟨-, rfl⟩
        · have := hcur u' e' he'
          omega
        · omega
  · exact h

lemma Level.next (hnear : Near succ s)
    (hs : next succ s = some t) : Level succ x t ∧ Near succ t := by
  have hgrows := next_grows hs
  obtain ⟨v, hv, rfl⟩ := next_eq_some.mp hs
  obtain ⟨hpop, d, hd⟩ := hinv.pop hv
  rw [hd, getD_some] at hgrows ⊢
  have hpopped : Level succ x { s with popped := s.popped + 1 } :=
    { h with band := fun i u e hi => h.band i u e (by dsimp only at hi; omega) }
  have hlevel : Level succ x (Search.scan d (succ v) { s with popped := s.popped + 1 }) ∧
      Inv succ seen x (Search.scan d (succ v) { s with popped := s.popped + 1 }) ∧
      Grows { s with popped := s.popped + 1 }
        (Search.scan d (succ v) { s with popped := s.popped + 1 }) := by
    refine scan_induct (fun t => Level succ x t ∧ Inv succ seen x t ∧
      Grows { s with popped := s.popped + 1 } t) ⟨hpopped, hpop, .refl _⟩ ?_
    rintro t w hw ⟨hl, hi, hg⟩
    exact ⟨hl.look hi hg.popped (hg.getElem? hv) (hg.dist v d hd) hw,
      hi.look (hg.getElem? hv) (hg.dist v d hd) hw, hg.trans (look_grows d t w)⟩
  refine ⟨hlevel.1, ?_⟩
  intro i u e hi hu he w hw
  rw [hgrows.popped] at hi
  have hlt := (List.getElem?_eq_some_iff.mp hv).1
  have hget : s.pushed[i]? = some u := by
    obtain ⟨ys, hys⟩ := hgrows.pushed
    rw [← hys, List.getElem?_append_left (by dsimp only at hi ⊢; omega)] at hu
    exact hu
  by_cases hlast : i = s.popped
  · subst hlast
    obtain rfl : u = v := some.inj (hget.symm.trans hv)
    obtain ⟨e', he'⟩ := ne_none_iff_exists'.mp
      (scan_visits d { s with popped := s.popped + 1 } hw)
    refine ⟨e', ?_, he'⟩
    exact hlevel.1.band s.popped u e (by rw [hgrows.popped]) hu he w e' he'
  · obtain ⟨e0, -, he0⟩ := hinv.index i u hget
    obtain rfl : e = e0 := some.inj (he.symm.trans (hgrows.dist u e0 he0))
    obtain ⟨e', hle, he'⟩ := hnear i u e (by dsimp only at hi; omega) hget he0 w hw
    exact ⟨e', hle, hgrows.dist w e' he'⟩

omit [DecidableEq V] in
lemma Level.dist_le (hnear : Near succ s) (hseen : ∀ v ∈ seen, v = x)
    (hend : s.popped = s.pushed.length) (hw : Walk succ x e v) : ∃ d ≤ e, s.dist v = some d := by
  induction hw with
  | nil => exact ⟨0, le_refl 0, h.first⟩
  | @snoc e v w _ hw ih =>
    obtain ⟨d, hde, hd⟩ := ih
    have hpushed : v ∈ s.pushed := by
      rcases (hinv.visited v).mp (by simp [hd]) with hv | hv
      · rw [hseen v hv]
        exact hinv.first
      · exact hv
    obtain ⟨i, hi⟩ := mem_iff_getElem?.mp hpushed
    have hlt := (List.getElem?_eq_some_iff.mp hi).1
    obtain ⟨d', hle, hd'⟩ := hnear i v d (hend ▸ hlt) hi hd w hw
    exact ⟨d', by omega, hd'⟩

end

lemma run_dist [Fintype V] (hs : ∀ v, s.dist v ≠ none → v = x)
    (hrun : run succ fuel (start x s) = some t) (hfuel : Fintype.card V < fuel) :
    t.dist v = some d ↔ IsDist succ x v d := by
  let I : Search V → Prop := fun u =>
    Inv succ {v | s.dist v ≠ none} x u ∧ Level succ x u ∧ Near succ u
  have hI : ∀ u u', I u → next succ u = some u' → I u' :=
    fun u u' h hnext => ⟨h.1.next hnext, h.2.1.next h.1 h.2.2 hnext⟩
  have hstart : I (start x s) :=
    ⟨.start _ fun v => Iff.rfl, .start hs, fun i v d hi => by simp [start] at hi⟩
  obtain ⟨u, hu, ⟨hinv, hlevel, hnear⟩, hend⟩ := run_spec I hI
    (fun u h => ⟨h.1.popped, h.1.length_le⟩) hstart (by simpa [start] using hfuel)
  obtain rfl : t = u := some.inj (hrun.symm.trans hu)
  have hle : ∀ e, Walk succ x e v → ∃ d ≤ e, t.dist v = some d :=
    fun e hw => hlevel.dist_le hinv hnear hs hend hw
  constructor
  · intro hd
    refine ⟨hlevel.walk v d hd, fun e he => ?_⟩
    obtain ⟨d', hle, hd'⟩ := hle e he
    rw [hd, some.injEq] at hd'
    omega
  · rintro ⟨hw, hmin⟩
    obtain ⟨d', hle, hd'⟩ := hle d hw
    have := hmin d' (hlevel.walk v d' hd')
    rwa [show d = d' by omega]

end Search

end SmcPim
