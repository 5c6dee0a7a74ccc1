import Mathlib

/-!
# Linked lists

A list is a function `next` on the addresses of its nodes.
-/

namespace SmcPim

open List

variable {α κ : Type*}

/-- From `a`, following `next` passes the nodes of `l` in order and arrives at `b`. -/
inductive Chain (next : α → α) : α → List α → α → Prop
  | nil (a : α) : Chain next a [] a
  | cons {a b : α} {l : List α} : Chain next (next a) l b → Chain next a (a :: l) b

namespace Chain

variable {next next' : α → α} {a b c p x : α} {l xs ys : List α}

@[simp] lemma nil_iff : Chain next a [] b ↔ a = b := by
  constructor
  · rintro ⟨⟩
    rfl
  · rintro rfl
    exact .nil _

@[simp] lemma cons_iff : Chain next a (x :: l) b ↔ a = x ∧ Chain next (next x) l b := by
  constructor
  · rintro ⟨⟩
    exact ⟨rfl, by assumption⟩
  · rintro ⟨rfl, h⟩
    exact .cons h

lemma append_iff : Chain next a (xs ++ ys) b ↔ ∃ c, Chain next a xs c ∧ Chain next c ys b := by
  induction xs generalizing a with
  | nil => simp
  | cons y xs ih => simp [ih, and_assoc]

lemma after (h : Chain next a (xs ++ p :: ys) b) : Chain next (next p) ys b := by
  obtain ⟨c, -, hc⟩ := append_iff.mp h
  exact (cons_iff.mp hc).2

lemma before (h : Chain next a (xs ++ p :: ys) b) : Chain next a xs p := by
  obtain ⟨c, hxs, hc⟩ := append_iff.mp h
  obtain ⟨rfl, -⟩ := cons_iff.mp hc
  exact hxs

lemma join (hxs : Chain next a xs p) (hys : Chain next (next p) ys b) :
    Chain next a (xs ++ p :: ys) b :=
  append_iff.mpr ⟨p, hxs, .cons hys⟩

lemma congr (h : Chain next a l b) (hl : ∀ x ∈ l, next' x = next x) : Chain next' a l b := by
  induction h with
  | nil => exact .nil _
  | cons _ ih =>
    rw [forall_mem_cons] at hl
    exact .cons (hl.1 ▸ ih hl.2)

lemma keep_sides (hl : (xs ++ p :: ys).Nodup)
    (hkeep : ∀ y ∈ xs ++ p :: ys, y ≠ p → next' y = next y) :
    (∀ y ∈ xs, next' y = next y) ∧ ∀ y ∈ ys, next' y = next y := by
  obtain ⟨-, hys, hdisj⟩ := nodup_append.mp hl
  refine ⟨fun y hy => hkeep y (mem_append_left _ hy) (hdisj y hy p mem_cons_self), fun y hy => ?_⟩
  refine hkeep y (mem_append_right _ (mem_cons_of_mem p hy)) ?_
  rintro rfl
  exact (nodup_cons.mp hys).1 hy

lemma insert (h : Chain next a (xs ++ p :: ys) b) (hl : (xs ++ p :: ys).Nodup) (hp : next' p = x)
    (hx : next' x = next p) (hkeep : ∀ y ∈ xs ++ p :: ys, y ≠ p → next' y = next y) :
    Chain next' a (xs ++ p :: x :: ys) b := by
  obtain ⟨hxs, hys⟩ := keep_sides hl hkeep
  apply (h.before.congr hxs).join
  rw [hp]
  apply Chain.cons
  rw [hx]
  exact h.after.congr hys

lemma remove (h : Chain next a (xs ++ p :: x :: ys) b) (hl : (xs ++ p :: x :: ys).Nodup)
    (hp : next' p = next x) (hkeep : ∀ y ∈ xs ++ p :: x :: ys, y ≠ p → next' y = next y) :
    Chain next' a (xs ++ p :: ys) b := by
  obtain ⟨hxs, hys⟩ := keep_sides hl hkeep
  rw [forall_mem_cons] at hys
  apply (h.before.congr hxs).join
  rw [hp]
  exact (cons_iff.mp h.after).2.congr hys.2

lemma next_eq (h : Chain next a (xs ++ p :: ys) b) : next p = (ys ++ [b]).head (by simp) := by
  have hafter := h.after
  cases ys with
  | nil => exact nil_iff.mp hafter
  | cons y ys => exact (cons_iff.mp hafter).1

lemma prefix_or (h : Chain next a xs b) (h' : Chain next a ys c) : xs <+: ys ∨ ys <+: xs := by
  induction h generalizing ys with
  | nil a => exact .inl nil_prefix
  | @cons a b l _ ih =>
    cases ys with
    | nil => exact .inr nil_prefix
    | cons y ys =>
      obtain ⟨rfl, h'⟩ := cons_iff.mp h'
      rw [prefix_cons_inj, prefix_cons_inj]
      exact ih h'

lemma unique (h : Chain next a xs b) (h' : Chain next a ys b) (hxs : b ∉ xs) (hys : b ∉ ys) :
    xs = ys := by
  induction h generalizing ys with
  | nil a =>
    cases ys with
    | nil => rfl
    | cons y ys =>
      obtain ⟨rfl, -⟩ := cons_iff.mp h'
      exact absurd mem_cons_self hys
  | @cons a b l _ ih =>
    cases ys with
    | nil =>
      obtain rfl := nil_iff.mp h'
      exact absurd mem_cons_self hxs
    | cons y ys =>
      obtain ⟨rfl, h'⟩ := cons_iff.mp h'
      rw [mem_cons, not_or] at hxs hys
      rw [ih h' hxs.2 hys.2]

lemma nodup (h : Chain next a l b) (hl : b ∉ l) : l.Nodup := by
  induction h with
  | nil => exact nodup_nil
  | @cons a b l h ih =>
    rw [mem_cons, not_or] at hl
    refine nodup_cons.mpr ⟨fun hmem => ?_, ih hl.2⟩
    obtain ⟨xs, ys, rfl⟩ := append_of_mem hmem
    have hys : b ∉ ys := fun hb => hl.2 (by simp [hb])
    have hlen := congrArg length (h.unique h.after hl.2 hys)
    simp at hlen
    omega

end Chain

/-! ## Lists sorted by key -/

section Keys

variable [LinearOrder κ] {key key' : α → κ} {k : κ} {x : α} {l xs ys : List α}

def Ascending (key : α → κ) (l : List α) : Prop := l.Pairwise fun x y => key x < key y

lemma Ascending.congr (h : Ascending key l) (hl : ∀ x ∈ l, key' x = key x) : Ascending key' l := by
  apply List.Pairwise.imp_of_mem _ h
  intro x y hx hy hlt
  rw [hl x hx, hl y hy]
  exact hlt

lemma Ascending.nodup_keys (h : Ascending key l) : (l.map key).Nodup :=
  (pairwise_map.mpr h).imp fun hlt => ne_of_lt hlt

lemma Ascending.sublist (h : Ascending key l) (hs : xs.Sublist l) : Ascending key xs :=
  List.Pairwise.sublist hs h

/-- Where the search for `k` divides a list. -/
structure Parted (key : α → κ) (k : κ) (xs ys : List α) : Prop where
  below : ∀ x ∈ xs, key x < k
  above : ∀ y ∈ ys, k ≤ key y

lemma Parted.congr (h : Parted key k xs ys) (hl : ∀ x ∈ xs ++ ys, key' x = key x) :
    Parted key' k xs ys where
  below := fun x hx => by
    rw [hl x (mem_append_left _ hx)]
    exact h.below x hx
  above := fun y hy => by
    rw [hl y (mem_append_right _ hy)]
    exact h.above y hy

lemma Ascending.parted (h : Ascending key l) (k : κ) :
    ∃ xs ys, l = xs ++ ys ∧ Parted key k xs ys := by
  induction l with
  | nil => exact ⟨[], [], rfl, by simp, by simp⟩
  | cons x l ih =>
    obtain ⟨hx, hl⟩ := pairwise_cons.mp h
    by_cases hlt : key x < k
    · obtain ⟨xs, ys, rfl, hxs, hys⟩ := ih hl
      exact ⟨x :: xs, ys, rfl, by simp [hlt]; exact hxs, hys⟩
    · refine ⟨[], x :: l, rfl, by simp, ?_⟩
      intro y hy
      rcases mem_cons.mp hy with rfl | hy
      · exact not_lt.mp hlt
      · exact le_of_lt (lt_of_le_of_lt (not_lt.mp hlt) (hx y hy))

lemma Parted.mem_iff (h : Parted key k xs ys) (hs : Ascending key (xs ++ ys)) :
    k ∈ (xs ++ ys).map key ↔ ∃ y zs, ys = y :: zs ∧ key y = k := by
  constructor
  · intro hk
    obtain ⟨x, hx, hxk⟩ := mem_map.mp hk
    rcases mem_append.mp hx with hx | hx
    · exact absurd (h.below x hx) (by simp [hxk])
    · cases ys with
      | nil => simp at hx
      | cons y zs =>
        refine ⟨y, zs, rfl, ?_⟩
        rcases mem_cons.mp hx with rfl | hx
        · exact hxk
        · have hlt := (pairwise_cons.mp (hs.sublist (sublist_append_right _ _))).1 x hx
          rw [hxk] at hlt
          exact absurd (h.above y mem_cons_self) (not_le.mpr hlt)
  · rintro ⟨y, zs, rfl, rfl⟩
    exact mem_map_of_mem (by simp)

lemma Parted.insert (h : Parted key k xs ys) (hs : Ascending key (xs ++ ys)) (hx : key x = k)
    (hk : k ∉ (xs ++ ys).map key) : Ascending key (xs ++ x :: ys) := by
  obtain ⟨h1, h2, h3⟩ := pairwise_append.mp hs
  refine pairwise_append.mpr ⟨h1, pairwise_cons.mpr ⟨?_, h2⟩, ?_⟩
  · intro y hy
    rw [hx]
    apply lt_of_le_of_ne (h.above y hy)
    rintro rfl
    exact hk (mem_map_of_mem (mem_append_right _ hy))
  · intro z hz y hy
    rcases mem_cons.mp hy with rfl | hy
    · rw [hx]
      exact h.below z hz
    · exact h3 z hz y hy

end Keys

section KeySet

variable [DecidableEq κ] {key key' : α → κ} {x : α} {xs ys : List α}

lemma keySet_insert (hkeep : ∀ y ∈ xs ++ ys, key' y = key y) :
    ((xs ++ x :: ys).map key').toFinset = insert (key' x) ((xs ++ ys).map key).toFinset := by
  rw [← map_congr_left hkeep]
  ext k
  simp only [map_append, map_cons, mem_toFinset, mem_append, mem_cons, Finset.mem_insert]
  tauto

lemma keySet_erase (hkeys : ((xs ++ x :: ys).map key).Nodup) (hkeep : ∀ y ∈ xs ++ ys, key' y = key y) :
    ((xs ++ ys).map key').toFinset = ((xs ++ x :: ys).map key).toFinset.erase (key x) := by
  rw [map_append, map_cons, nodup_middle, nodup_cons, ← map_append] at hkeys
  rw [keySet_insert fun _ _ => rfl, map_congr_left hkeep,
    Finset.erase_insert (mt mem_toFinset.mp hkeys.1)]

end KeySet

end SmcPim
