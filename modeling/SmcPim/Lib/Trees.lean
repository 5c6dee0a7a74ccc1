import Mathlib

/-! # Search trees -/

namespace SmcPim

open List

variable {α : Type*}

def inorder : BinaryTree α → List α
  | .nil => []
  | .node key left right => inorder left ++ key :: inorder right

lemma inorder_node (key : α) (left right : BinaryTree α) :
    inorder (.node key left right) = inorder left ++ key :: inorder right := rfl

lemma inorder_map {β : Type*} (f : α → β) (t : BinaryTree α) : inorder (t.map f) =
    (inorder t).map f := by
  induction t with
  | nil => rfl
  | node key left right ihl ihr => rw [BinaryTree.map, inorder_node, inorder_node, ihl, ihr, map_append, map_cons]

lemma height_map {β : Type*} (f : α → β) (t : BinaryTree α) : (t.map f).height = t.height := by
  induction t with
  | nil => rfl
  | node key left right ihl ihr => rw [BinaryTree.map, BinaryTree.height, BinaryTree.height, ihl, ihr]

variable [LinearOrder α]

def Bst (t : BinaryTree α) : Prop := (inorder t).Pairwise (· < ·)

instance (t : BinaryTree α) : Decidable (Bst t) := inferInstanceAs (Decidable (List.Pairwise _ _))

variable {key x : α} {left right : BinaryTree α}

lemma bst_nil : Bst (.nil : BinaryTree α) := List.Pairwise.nil

lemma bst_node : Bst (.node key left right) ↔
    Bst left ∧ Bst right ∧ (∀ x ∈ inorder left, x < key) ∧ ∀ x ∈ inorder right, key < x := by
  unfold Bst
  rw [inorder_node, pairwise_append, pairwise_cons]
  constructor
  · rintro ⟨hl, ⟨hkey, hr⟩, hlr⟩
    exact ⟨hl, hr, fun x hx => hlr x hx key mem_cons_self, hkey⟩
  · rintro ⟨hl, hr, hless, hkey⟩
    refine ⟨hl, ⟨hkey, hr⟩, fun x hx y hy => ?_⟩
    rcases mem_cons.mp hy with rfl | hy
    · exact hless x hx
    · exact (hless x hx).trans (hkey y hy)

/-- Whether the search for `x` ends at a node with that key, and how many nodes it visits. -/
def lookup : BinaryTree α → α → Bool × ℕ
  | .nil, _ => (false, 0)
  | .node key left right, x =>
    if key = x then (true, 1)
    else if x < key then ((lookup left x).1, (lookup left x).2 + 1)
    else ((lookup right x).1, (lookup right x).2 + 1)

lemma lookup_le_height (t : BinaryTree α) (x : α) : (lookup t x).2 ≤ t.height := by
  induction t with
  | nil => exact le_rfl
  | node key left right ihl ihr =>
    rw [lookup, BinaryTree.height]
    split
    · exact Nat.succ_pos _
    · split
      · exact Nat.succ_le_succ (ihl.trans (le_max_left _ _))
      · exact Nat.succ_le_succ (ihr.trans (le_max_right _ _))

lemma Bst.lookup_found {t : BinaryTree α} {x : α} (h : Bst t) (hx : x ∈ inorder t) :
    (lookup t x).1 = true ∧ 1 ≤ (lookup t x).2 := by
  induction t with
  | nil => cases hx
  | node key left right ihl ihr =>
    obtain ⟨hl, hr, hleft, hright⟩ := bst_node.mp h
    rw [inorder_node, mem_append, mem_cons] at hx
    rw [lookup]
    split
    · exact ⟨rfl, le_rfl⟩
    · rename_i hne
      split
      · rename_i hlt
        have hmem : x ∈ inorder left := by
          rcases hx with hx | rfl | hx
          · exact hx
          · exact absurd rfl hne
          · exact absurd hlt (hright x hx).asymm
        exact ⟨(ihl hl hmem).1, Nat.succ_pos _⟩
      · rename_i hlt
        have hmem : x ∈ inorder right := by
          rcases hx with hx | rfl | hx
          · exact absurd (hleft x hx) hlt
          · exact absurd rfl hne
          · exact hx
        exact ⟨(ihr hr hmem).1, Nat.succ_pos _⟩

/-! ## Perfect trees -/

/-- A tree with `h` full levels: places row by row, keys in order from `start` on. -/
def perfect : ℕ → ℕ → ℕ → BinaryTree (ℕ × ℕ)
  | 0, _, _ => .nil
  | h + 1, k, start =>
    .node (k, start + (2 ^ h - 1)) (perfect h (2 * k + 1) start) (perfect h (2 * k + 2) (start + 2 ^ h))

def row (k l : ℕ) : List ℕ := List.range' ((k + 1) * 2 ^ l - 1) (2 ^ l)

lemma height_perfect (h k start : ℕ) : (perfect h k start).height = h := by
  induction h generalizing k start with
  | zero => rfl
  | succ h ih => rw [perfect, BinaryTree.height, ih, ih, max_self]

lemma inorder_perfect_keys (h k start : ℕ) :
    (inorder (perfect h k start)).map Prod.snd = range' start (2 ^ h - 1) := by
  induction h generalizing k start with
  | zero => rfl
  | succ h ih =>
    have hpos := Nat.two_pow_pos h
    rw [perfect, inorder_node, map_append, map_cons, ih, ih,
      show 2 ^ (h + 1) - 1 = (2 ^ h - 1) + ((2 ^ h - 1) + 1) by rw [pow_succ]; omega, ← range'_append_1,
      range'_succ, show start + (2 ^ h - 1) + 1 = start + 2 ^ h by omega]

lemma row_succ (k l : ℕ) : row (2 * k + 1) l ++ row (2 * k + 2) l = row k (l + 1) := by
  have hpos := Nat.two_pow_pos l
  have hfirst : (2 * k + 1 + 1) * 2 ^ l = (k + 1) * 2 ^ (l + 1) := by ring
  have hsecond : (2 * k + 2 + 1) * 2 ^ l - 1 = (k + 1) * 2 ^ (l + 1) - 1 + 2 ^ l := by
    have : (2 * k + 2 + 1) * 2 ^ l = (k + 1) * 2 ^ (l + 1) + 2 ^ l := by ring
    have : 0 < (k + 1) * 2 ^ (l + 1) := by positivity
    omega
  unfold row
  rw [hfirst, hsecond, range'_append_1, ← two_mul, ← pow_succ']

def places : ℕ → ℕ → List ℕ
  | 0, _ => []
  | h + 1, k => places h (2 * k + 1) ++ k :: places h (2 * k + 2)

lemma inorder_perfect_places (h k start : ℕ) :
    (inorder (perfect h k start)).map Prod.fst = places h k := by
  induction h generalizing k start with
  | zero => rfl
  | succ h ih => rw [perfect, inorder_node, map_append, map_cons, ih, ih, places]

lemma places_perm (h k : ℕ) : (places h k).Perm ((range h).flatMap (row k)) := by
  induction h generalizing k with
  | zero => exact List.Perm.refl _
  | succ h ih =>
    have hrows : (range (h + 1)).flatMap (row k) =
        k :: (range h).flatMap fun l => row (2 * k + 1) l ++ row (2 * k + 2) l := by
      rw [range_succ_eq_map, flatMap_cons, flatMap_map]
      simp only [row_succ, Nat.succ_eq_add_one]
      simp [row]
    rw [places, hrows]
    refine perm_middle.trans (List.Perm.cons _ ?_)
    exact ((ih _).append (ih _)).trans (flatMap_append_perm _ _ _)

lemma rows_zero (h : ℕ) : (range h).flatMap (row 0) = range (2 ^ h - 1) := by
  induction h with
  | zero => rfl
  | succ h ih =>
    have hpos := Nat.two_pow_pos h
    have hsum : 2 ^ (h + 1) - 1 = (2 ^ h - 1) + 2 ^ h := by
      rw [pow_succ]
      omega
    rw [range_succ, flatMap_append, ih, flatMap_cons, flatMap_nil, append_nil, row, zero_add,
      one_mul, hsum, range_eq_range', range_eq_range', ← range'_append_1, zero_add]

lemma places_zero_perm (h : ℕ) : (places h 0).Perm (range (2 ^ h - 1)) := by
  rw [← rows_zero]
  exact places_perm h 0

end SmcPim
