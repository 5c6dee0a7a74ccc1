import SmcPim.Lib.Trees

/-!
# The check of the search tree

`check_tree` of `offload_tree/main.cc`. It compares each node with its children, and with no node further below.
-/

namespace SmcPim.TreeSearch

open List BinaryTree

/-- The tree below a pointer; the null pointer is the empty tree. -/
def checkTree : BinaryTree ℕ → Bool
  | .nil => false
  | .node key left right =>
    let flag :=
      match left with
      | .nil => true
      | .node leftKey _ _ => if leftKey ≥ key then false else checkTree left
    match right with
    | .nil => flag
    | .node rightKey _ _ =>
      let flag := if rightKey ≤ key then false else flag
      if flag then checkTree right else flag

def rootKey : BinaryTree ℕ → Option ℕ
  | .nil => none
  | .node key _ _ => some key

/-- Each child is on its side of its parent. -/
def EdgesOrdered : BinaryTree ℕ → Prop
  | .nil => True
  | .node key left right =>
    (∀ k ∈ rootKey left, k < key) ∧ (∀ k ∈ rootKey right, key < k) ∧ EdgesOrdered left ∧ EdgesOrdered right

def leftChildren : BinaryTree ℕ → List ℕ
  | .nil => []
  | .node _ left right => leftChildren left ++ (rootKey left).toList ++ leftChildren right

def rightChildren : BinaryTree ℕ → List ℕ
  | .nil => []
  | .node _ left right => rightChildren left ++ (rootKey right).toList ++ rightChildren right

/-- Where a path bends, it stays on its side of the nodes above the parent. -/
def BendsInside : BinaryTree ℕ → Prop
  | .nil => True
  | .node key left right =>
    (∀ k ∈ rightChildren left, k < key) ∧ (∀ k ∈ leftChildren right, key < k) ∧ BendsInside left ∧ BendsInside right

variable {key n : ℕ} {t left right : BinaryTree ℕ} {l r : BinaryTree Unit}

lemma checkTree_iff (hroot : t ≠ .nil) : checkTree t = true ↔ EdgesOrdered t := by
  induction t with
  | nil => exact absurd rfl hroot
  | node key left right ihl ihr =>
    rw [EdgesOrdered]
    cases left with
    | nil =>
      cases right with
      | nil => simp [checkTree, EdgesOrdered, rootKey]
      | node rightKey c d =>
        rw [← ihr (by simp), checkTree]
        simp [EdgesOrdered, rootKey]
    | node leftKey a b =>
      rw [← ihl (by simp)]
      cases right with
      | nil => simp [checkTree, EdgesOrdered, rootKey]
      | node rightKey c d =>
        rw [← ihr (by simp), checkTree]
        simp [rootKey]
        tauto

lemma mem_inorder_root : key ∈ inorder (.node key left right) := by simp [inorder]

lemma rootKey_subset : ∀ k ∈ rootKey t, k ∈ inorder t := by
  cases t with
  | nil => simp [rootKey]
  | node key left right =>
    rintro k ⟨rfl⟩
    exact mem_inorder_root

lemma rightChildren_subset : ∀ k ∈ rightChildren t, k ∈ inorder t := by
  induction t with
  | nil => simp [rightChildren]
  | node key left right ihl ihr =>
    intro k hk
    have hroot : ∀ k ∈ rootKey right, k ∈ inorder right := rootKey_subset
    simp only [rightChildren, mem_append, Option.mem_toList] at hk
    simp only [inorder_node, mem_append, mem_cons]
    tauto

lemma leftChildren_subset : ∀ k ∈ leftChildren t, k ∈ inorder t := by
  induction t with
  | nil => simp [leftChildren]
  | node key left right ihl ihr =>
    intro k hk
    have hroot : ∀ k ∈ rootKey left, k ∈ inorder left := rootKey_subset
    simp only [leftChildren, mem_append, Option.mem_toList] at hk
    simp only [inorder_node, mem_append, mem_cons]
    tauto

lemma keys_lt (hedges : EdgesOrdered t) (hroot : ∀ k ∈ rootKey t, k < n)
    (hbends : ∀ k ∈ rightChildren t, k < n) : ∀ k ∈ inorder t, k < n := by
  induction t with
  | nil => simp [inorder]
  | node key left right ihl ihr =>
    obtain ⟨hleft, -, hel, her⟩ := hedges
    have hkey : key < n := hroot key rfl
    simp only [rightChildren, mem_append, Option.mem_toList] at hbends
    have hl := ihl hel (fun k hk => (hleft k hk).trans hkey) (fun k hk => hbends k (.inl (.inl hk)))
    have hr := ihr her (fun k hk => hbends k (.inl (.inr hk))) (fun k hk => hbends k (.inr hk))
    intro k hk
    rw [inorder_node, mem_append, mem_cons] at hk
    rcases hk with hk | rfl | hk
    · exact hl k hk
    · exact hkey
    · exact hr k hk

lemma lt_keys (hedges : EdgesOrdered t) (hroot : ∀ k ∈ rootKey t, n < k)
    (hbends : ∀ k ∈ leftChildren t, n < k) : ∀ k ∈ inorder t, n < k := by
  induction t with
  | nil => simp [inorder]
  | node key left right ihl ihr =>
    obtain ⟨-, hright, hel, her⟩ := hedges
    have hkey : n < key := hroot key rfl
    simp only [leftChildren, mem_append, Option.mem_toList] at hbends
    have hl := ihl hel (fun k hk => hbends k (.inl (.inr hk))) (fun k hk => hbends k (.inl (.inl hk)))
    have hr := ihr her (fun k hk => hkey.trans (hright k hk)) (fun k hk => hbends k (.inr hk))
    intro k hk
    rw [inorder_node, mem_append, mem_cons] at hk
    rcases hk with hk | rfl | hk
    · exact hl k hk
    · exact hkey
    · exact hr k hk

lemma bst_iff : Bst t ↔ EdgesOrdered t ∧ BendsInside t := by
  induction t with
  | nil => simp [bst_nil, EdgesOrdered, BendsInside]
  | node key left right ihl ihr =>
    rw [bst_node, ihl, ihr]
    constructor
    · rintro ⟨⟨hel, hbl⟩, ⟨her, hbr⟩, hl, hr⟩
      exact ⟨⟨fun k hk => hl k (rootKey_subset k hk), fun k hk => hr k (rootKey_subset k hk), hel, her⟩,
        fun k hk => hl k (rightChildren_subset k hk), fun k hk => hr k (leftChildren_subset k hk), hbl, hbr⟩
    · rintro ⟨⟨hkl, hkr, hel, her⟩, hl, hr, hbl, hbr⟩
      exact ⟨⟨hel, hbl⟩, ⟨her, hbr⟩, keys_lt hel hkl hl, lt_keys her hkr hr⟩

/-- The check is right about a tree exactly if the keys are out of order at an edge, or at no bend. -/
theorem checkTree_iff_bst_iff (key : ℕ) (left right : BinaryTree ℕ) :
    (checkTree (.node key left right) = true ↔ Bst (.node key left right)) ↔
      (EdgesOrdered (.node key left right) → BendsInside (.node key left right)) := by
  rw [checkTree_iff (by simp), bst_iff]
  tauto

/-- Below the left child 3 of the root 5 there is a 7, on the right. -/
theorem checkTree_accepts_seven_left_of_five :
    let t : BinaryTree ℕ := .node 5 (.node 3 .nil (.node 7 .nil .nil)) .nil
    checkTree t = true ∧ ¬Bst t := by
  decide

/-! ## Shapes without a bend -/

def LeftSpine : BinaryTree Unit → Prop
  | .nil => True
  | .node _ left right => right = .nil ∧ LeftSpine left

def RightSpine : BinaryTree Unit → Prop
  | .nil => True
  | .node _ left right => left = .nil ∧ RightSpine right

def shape (t : BinaryTree ℕ) : BinaryTree Unit := t.map fun _ => ()

lemma shape_eq_nil (h : shape t = .nil) : t = .nil := by
  cases t with
  | nil => rfl
  | node => cases h

lemma LeftSpine.bends (h : LeftSpine (shape t)) : rightChildren t = [] ∧ BendsInside t := by
  induction t with
  | nil => exact ⟨rfl, trivial⟩
  | node key left right ihl _ =>
    obtain ⟨hr, hl⟩ := h
    obtain rfl := shape_eq_nil hr
    obtain ⟨hnone, hin⟩ := ihl hl
    exact ⟨by simp [rightChildren, hnone, rootKey], by simp [hnone], by simp [leftChildren], hin, trivial⟩

lemma RightSpine.bends (h : RightSpine (shape t)) : leftChildren t = [] ∧ BendsInside t := by
  induction t with
  | nil => exact ⟨rfl, trivial⟩
  | node key left right _ ihr =>
    obtain ⟨hl, hr⟩ := h
    obtain rfl := shape_eq_nil hl
    obtain ⟨hnone, hin⟩ := ihr hr
    exact ⟨by simp [leftChildren, hnone, rootKey], by simp [rightChildren], by simp [hnone], trivial, hin⟩

def zigzag : BinaryTree Unit → ℕ → BinaryTree ℕ
  | .nil, _ => .nil
  | .node _ left right, n => .node n (zigzag left (n - 1)) (zigzag right (n + 1))

lemma shape_zigzag (s : BinaryTree Unit) (n : ℕ) : shape (zigzag s n) = s := by
  induction s generalizing n with
  | nil => rfl
  | node _ l r ihl ihr => exact congrArg₂ (node ()) (ihl _) (ihr _)

lemma rootKey_zigzag (s : BinaryTree Unit) (n : ℕ) : ∀ k ∈ rootKey (zigzag s n), k = n := by
  cases s with
  | nil | node => simp [zigzag, rootKey]

lemma edgesOrdered_zigzag (h : l.height ≤ n) : EdgesOrdered (zigzag l n) := by
  induction l generalizing n with
  | nil => trivial
  | node _ a b iha ihb =>
    rw [height] at h
    refine ⟨fun k hk => ?_, fun k hk => ?_, iha (by omega), ihb (by omega)⟩
    · rw [rootKey_zigzag a _ k hk]
      omega
    · rw [rootKey_zigzag b _ k hk]
      omega

lemma leftSpine_of_below (hn : l.height < n) (hin : BendsInside (zigzag l (n - 1)))
    (hall : ∀ k ∈ rightChildren (zigzag l (n - 1)), k < n) : LeftSpine l := by
  induction l generalizing n with
  | nil => trivial
  | node _ a b iha _ =>
    rw [height] at hn
    obtain ⟨hbelow, -, hina, -⟩ := hin
    refine ⟨?_, iha (by omega) hina hbelow⟩
    cases b with
    | nil => rfl
    | node _ c d =>
      have hback := hall (n - 1 + 1) (by simp [zigzag, rightChildren, rootKey])
      omega

lemma rightSpine_of_above (hin : BendsInside (zigzag r (n + 1)))
    (hall : ∀ k ∈ leftChildren (zigzag r (n + 1)), n < k) : RightSpine r := by
  induction r generalizing n with
  | nil => trivial
  | node _ a b _ ihb =>
    obtain ⟨-, habove, -, hinb⟩ := hin
    refine ⟨?_, ihb hinb habove⟩
    cases a with
    | nil => rfl
    | node _ c d =>
      have hback := hall (n + 1 - 1) (by simp [zigzag, leftChildren, rootKey])
      omega

/-- The check is exact for a shape if no left child has a right child, and no right child a left
one. -/
lemma checkTree_exact_of_shape (l r : BinaryTree Unit) :
    (∀ t, shape t = .node () l r → (checkTree t = true ↔ Bst t)) ↔ LeftSpine l ∧ RightSpine r := by
  constructor
  · intro h
    have hexact := h _ (shape_zigzag (.node () l r) (max l.height r.height + 1))
    have hedges : EdgesOrdered (zigzag (.node () l r) (max l.height r.height + 1)) :=
      edgesOrdered_zigzag (by rw [height])
    rw [checkTree_iff (by simp [zigzag]), bst_iff] at hexact
    obtain ⟨-, hl, hr, hinl, hinr⟩ := hexact.mp hedges
    exact ⟨leftSpine_of_below (by omega) hinl hl, rightSpine_of_above hinr hr⟩
  · rintro ⟨hl, hr⟩ t ht
    cases t with
    | nil => cases ht
    | node key left right =>
      obtain ⟨-, rfl, rfl⟩ := node.inj ht
      obtain ⟨hnl, hinl⟩ := hl.bends
      obtain ⟨hnr, hinr⟩ := hr.bends
      rw [checkTree_iff (by simp), bst_iff]
      exact ⟨fun h => ⟨h, by simp [hnl], by simp [hnr], hinl, hinr⟩, And.left⟩

end SmcPim.TreeSearch
