import Mathlib

/-! # Shortest paths by relaxing edges -/

namespace SmcPim.Paths

open List Function

variable {α : Type*} {edge : α → α → ℕ → Prop} {s u v x : α} {l : List α} {L w : ℕ}

/-! ## Walks and paths -/

/-- The vertices that a walk passes before its end, the last one first, its end and its length. -/
inductive Walk (edge : α → α → ℕ → Prop) (s : α) : List α → α → ℕ → Prop
  | nil : Walk edge s [] s 0
  | step {l : List α} {u v : α} {L w : ℕ} : Walk edge s l u L → edge u v w → Walk edge s (u :: l) v (L + w)

structure Path (edge : α → α → ℕ → Prop) (s : α) (l : List α) (v : α) (L : ℕ) : Prop where
  walk : Walk edge s l v L
  nodup : (v :: l).Nodup

lemma Walk.cut (h : Walk edge s l v L) (hx : x ∈ v :: l) :
    ∃ l' L', Walk edge s l' x L' ∧ x :: l' <:+ v :: l ∧ L' ≤ L := by
  induction h with
  | nil =>
    obtain rfl := mem_singleton.mp hx
    exact ⟨[], 0, .nil, suffix_rfl, le_rfl⟩
  | @step l u v L w hwalk hedge ih =>
    rcases mem_cons.mp hx with rfl | hx
    · exact ⟨u :: l, L + w, .step hwalk hedge, suffix_rfl, le_rfl⟩
    · obtain ⟨l', L', hwalk', hsuffix, hle⟩ := ih hx
      exact ⟨l', L', hwalk', hsuffix.trans (suffix_cons _ _), hle.trans (Nat.le_add_right _ _)⟩

lemma Walk.exists_path (h : Walk edge s l v L) : ∃ l' L', Path edge s l' v L' ∧ L' ≤ L := by
  induction h with
  | nil => exact ⟨[], 0, ⟨.nil, nodup_singleton _⟩, le_rfl⟩
  | @step l u v L w hwalk hedge ih =>
    obtain ⟨l', L', hpath, hle⟩ := ih
    by_cases hv : v ∈ u :: l'
    · obtain ⟨l'', L'', hwalk'', hsuffix, hle'⟩ := hpath.walk.cut hv
      exact ⟨l'', L'', ⟨hwalk'', hpath.nodup.sublist hsuffix.sublist⟩, by omega⟩
    · exact ⟨u :: l', L' + w, ⟨.step hpath.walk hedge, nodup_cons.mpr ⟨hv, hpath.nodup⟩⟩, by omega⟩

variable {V : Finset α}

lemma Walk.mem_of_closed (h : Walk edge s l v L) (hs : s ∈ V)
    (hV : ∀ u v w, edge u v w → v ∈ V) : ∀ x ∈ v :: l, x ∈ V := by
  induction h with
  | nil => simpa using hs
  | step hwalk hedge ih =>
    intro x hx
    rcases mem_cons.mp hx with rfl | hx
    · exact hV _ _ _ hedge
    · exact ih x hx

lemma Path.length_lt (h : Path edge s l v L) (hs : s ∈ V) (hV : ∀ u v w, edge u v w → v ∈ V) :
    l.length < V.card := by
  classical
  have hsub : (v :: l).toFinset ⊆ V := fun x hx => h.walk.mem_of_closed hs hV x (mem_toFinset.mp hx)
  have hcard := Finset.card_le_card hsub
  rw [toFinset_card_of_nodup h.nodup, length_cons] at hcard
  exact hcard

structure IsShortest (edge : α → α → ℕ → Prop) (s v : α) (L : ℕ) : Prop where
  walk : ∃ l, Walk edge s l v L
  le : ∀ l' L', Walk edge s l' v L' → L ≤ L'

/-! ## Distances along a path -/

variable {top k : ℕ} {d d' : α → ℕ}

/-- A walk with no vertex farther than the walk up to it. -/
inductive Tracked (edge : α → α → ℕ → Prop) (s : α) (d : α → ℕ) : List α → α → ℕ → Prop
  | nil : d s ≤ 0 → Tracked edge s d [] s 0
  | step {l : List α} {u v : α} {L w : ℕ} :
    Tracked edge s d l u L → edge u v w → d v ≤ L + w → Tracked edge s d (u :: l) v (L + w)

lemma Tracked.walk (h : Tracked edge s d l v L) : Walk edge s l v L := by
  induction h with
  | nil _ => exact .nil
  | step _ hedge _ ih => exact .step ih hedge

lemma Tracked.mono (h : Tracked edge s d l v L) (hle : ∀ x, d' x ≤ d x) :
    Tracked edge s d' l v L := by
  induction h with
  | nil hs => exact .nil ((hle _).trans hs)
  | step _ hedge hv ih => exact .step ih hedge ((hle _).trans hv)

lemma Tracked.dist_le (h : Tracked edge s d l v L) (hx : x ∈ v :: l) : d x ≤ L := by
  induction h with
  | nil hs =>
    obtain rfl := mem_singleton.mp hx
    exact hs
  | step _ _ hv ih =>
    rcases mem_cons.mp hx with rfl | hx
    · exact hv
    · exact (ih hx).trans (Nat.le_add_right _ _)

/-- Every distance other than `top` is the length of a path. -/
structure Sound (edge : α → α → ℕ → Prop) (s : α) (top : ℕ) (d : α → ℕ) : Prop where
  le_top : ∀ v, d v ≤ top
  path : ∀ v, d v ≠ top → ∃ l, Tracked edge s d l v (d v) ∧ (v :: l).Nodup

lemma Sound.exists_path (h : Sound edge s top d) (hv : d v ≠ top) : ∃ l, Path edge s l v (d v) := by
  obtain ⟨l, htracked, hnodup⟩ := h.path v hv
  exact ⟨l, htracked.walk, hnodup⟩

lemma sound_start (hs : d s = 0) (htop : ∀ v ≠ s, d v = top) : Sound edge s top d where
  le_top v := by
    by_cases hv : v = s
    · rw [hv, hs]
      exact Nat.zero_le _
    · exact (htop v hv).le
  path v hv := by
    obtain rfl : v = s := by_contra fun hne => hv (htop v hne)
    rw [hs]
    exact ⟨[], .nil hs.le, nodup_singleton _⟩

lemma Sound.shortest_le (h : Sound edge s top d) (htop : ∀ l v L, Path edge s l v L → L ≤ top)
    (hL : IsShortest edge s v L) : L ≤ d v := by
  by_cases hv : d v = top
  · obtain ⟨l, hwalk⟩ := hL.walk
    obtain ⟨l', L', hpath, hle⟩ := hwalk.exists_path
    rw [hv]
    exact (hL.le _ _ hpath.walk).trans (htop _ _ _ hpath)
  · obtain ⟨l, hpath⟩ := h.exists_path hv
    exact hL.le _ _ hpath.walk

/-! ## Relaxing an edge -/

section
variable [DecidableEq α]

def relax (top : ℕ) (u v : α) (w : ℕ) (d : α → ℕ) : α → ℕ :=
  if d u ≠ top ∧ d u + w < d v then Function.update d v (d u + w) else d

lemma relax_le (x : α) : relax top u v w d x ≤ d x := by
  unfold relax
  split_ifs with h
  · by_cases hx : x = v
    · rw [hx, update_self]
      exact h.2.le
    · rw [update_of_ne hx]
  · exact le_rfl

lemma relax_edge_le (hu : d u ≠ top) : relax top u v w d v ≤ d u + w := by
  unfold relax
  split_ifs with h
  · rw [update_self]
  · exact not_lt.mp fun hlt => h ⟨hu, hlt⟩

lemma Sound.relax (h : Sound edge s top d) (hedge : edge u v w) : Sound edge s top
    (relax top u v w d) := by
  refine ⟨fun x => (relax_le x).trans (h.le_top x), fun x hx => ?_⟩
  by_cases hif : d u ≠ top ∧ d u + w < d v
  · have hrelax : Paths.relax top u v w d = update d v (d u + w) := if_pos hif
    by_cases hxv : x = v
    · subst hxv
      obtain ⟨l, htracked, hnodup⟩ := h.path u hif.1
      have hself : Paths.relax top u x w d x = d u + w := by rw [hrelax, update_self]
      -- On the path to `u` no vertex is farther than `u`.
      have hnot : x ∉ u :: l := by
        intro hmem
        have hle := htracked.dist_le hmem
        omega
      rw [hself]
      exact ⟨u :: l, .step (htracked.mono relax_le) hedge hself.le, nodup_cons.mpr ⟨hnot, hnodup⟩⟩
    · have hsame : Paths.relax top u v w d x = d x := by rw [hrelax, update_of_ne hxv]
      rw [hsame] at hx ⊢
      obtain ⟨l, htracked, hnodup⟩ := h.path x hx
      exact ⟨l, htracked.mono relax_le, hnodup⟩
  · have hrelax : Paths.relax top u v w d = d := if_neg hif
    rw [hrelax] at hx ⊢
    exact h.path x hx

/-! ## A pass over the edges -/

structure Pass (done : α → α → ℕ → Prop) (top : ℕ) (d d' : α → ℕ) : Prop where
  le : ∀ v, d' v ≤ d v
  relaxed : ∀ u v w, done u v w → d u ≠ top → d' v ≤ d u + w

variable {done done' : α → α → ℕ → Prop}

omit [DecidableEq α] in
lemma Pass.start (hdone : ∀ u v w, ¬done u v w) : Pass done top d d :=
  ⟨fun _ => le_rfl, fun u v w h => absurd h (hdone u v w)⟩

lemma Pass.relax (h : Pass done top d d') (htop : ∀ v, d v ≤ top)
    (hdone : ∀ a b c, done' a b c → done a b c ∨ (a = u ∧ b = v ∧ c = w)) :
    Pass done' top d (relax top u v w d') := by
  refine ⟨fun x => (relax_le x).trans (h.le x), fun a b c hdone' ha => ?_⟩
  rcases hdone a b c hdone' with hold | ⟨rfl, rfl, rfl⟩
  · exact (relax_le b).trans (h.relaxed a b c hold ha)
  · have hle := h.le a
    have hne : d' a ≠ top := by
      have := htop a
      omega
    exact (relax_edge_le hne).trans (by omega)

end

def Near (edge : α → α → ℕ → Prop) (s : α) (k : ℕ) (d : α → ℕ) : Prop :=
  ∀ l v L, Walk edge s l v L → l.length ≤ k → d v ≤ L

lemma near_start (hs : d s = 0) : Near edge s 0 d := by
  intro l v L hwalk hlength
  cases hwalk with
  | nil => exact hs.le
  | step _ _ => simp at hlength

lemma Near.pass (h : Near edge s k d) (htop : ∀ v, d v ≤ top) (hpass : Pass edge top d d') :
    Near edge s (k + 1) d' := by
  intro l v L hwalk hlength
  cases hwalk with
  | nil => exact (hpass.le _).trans (h _ _ _ .nil (Nat.zero_le _))
  | @step l u _ L w hwalk hedge =>
    have hu : d u ≤ L := h _ _ _ hwalk (Nat.succ_le_succ_iff.mp hlength)
    by_cases hne : d u = top
    · -- Then the walk is longer than any distance.
      calc d' v ≤ d v := hpass.le v
        _ ≤ d u := hne ▸ htop v
        _ ≤ L + w := by omega
    · exact (hpass.relaxed u v w hedge hne).trans (by omega)

lemma Near.dist_le_shortest (h : Near edge s k d) (hs : s ∈ V) (hV : ∀ u v w, edge u v w → v ∈ V)
    (hk : V.card ≤ k + 1) (hL : IsShortest edge s v L) : d v ≤ L := by
  obtain ⟨l, hwalk⟩ := hL.walk
  obtain ⟨l', L', hpath, hle⟩ := hwalk.exists_path
  have hlength := hpath.length_lt hs hV
  exact (h _ _ _ hpath.walk (by omega)).trans hle

end SmcPim.Paths
