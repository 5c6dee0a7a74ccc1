import SmcPim.Lib.Chain
import SmcPim.Lib.Merge

/-!
# The list of the consistency checker

From `host/test_consistency/LinkedList.h`: the keys between a head with the key 0 and a tail that is
told by its address.
-/

namespace SmcPim.Checker

open List

def contains (x : ℕ) : List ℕ → Bool
  | [] => false
  | y :: l => if x < y then false else if y = x then true else contains x l

def insertKey (x : ℕ) : List ℕ → Bool × List ℕ
  | [] => (true, [x])
  | y :: l =>
    if x < y then (true, x :: y :: l)
    else if y = x then (false, y :: l)
    else ((insertKey x l).1, y :: (insertKey x l).2)

/-- The key of the head is not added. -/
def add (x : ℕ) (l : List ℕ) : Bool × List ℕ := if x = 0 then (false, l) else insertKey x l

def eraseKey (x : ℕ) : List ℕ → Bool × List ℕ
  | [] => (false, [])
  | y :: l =>
    if x < y then (false, y :: l)
    else if y = x then (true, l)
    else ((eraseKey x l).1, y :: (eraseKey x l).2)

def remove (x : ℕ) (l : List ℕ) : Bool × List ℕ := if x = 0 then (false, l) else eraseKey x l

def exec (l : List ℕ) : SetOp ℕ → Bool × List ℕ
  | .contains x => (contains x l, l)
  | .add x => add x l
  | .remove x => remove x l

def replay : List ℕ → List (SetOp ℕ) → List Bool
  | _, [] => []
  | l, op :: ops => (exec l op).1 :: replay (exec l op).2 ops

/-! ## The list is a set of keys other than 0 -/

structure Lists (S : Finset ℕ) (l : List ℕ) : Prop where
  sorted : Ascending id l
  mem : ∀ x, x ∈ l ↔ x ∈ S

variable {S : Finset ℕ} {l : List ℕ} {x y : ℕ}

lemma lists_nil : Lists ∅ [] := ⟨List.Pairwise.nil, by simp⟩

lemma Lists.head_lt (h : Lists S (y :: l)) : ∀ z ∈ l, y < z := (pairwise_cons.mp h.sorted).1

lemma Lists.tail (h : Lists S (y :: l)) : Lists (S.erase y) l := by
  refine ⟨(pairwise_cons.mp h.sorted).2, fun x => ?_⟩
  rw [Finset.mem_erase, ← h.mem, mem_cons]
  constructor
  · intro hx
    exact ⟨(h.head_lt x hx).ne', .inr hx⟩
  · rintro ⟨hne, rfl | hx⟩
    · exact absurd rfl hne
    · exact hx

lemma Lists.eq_empty (h : Lists S []) : S = ∅ :=
  Finset.eq_empty_of_forall_notMem fun z hz => absurd ((h.mem z).mpr hz) not_mem_nil

lemma Lists.notMem_of_lt (h : Lists S (y :: l)) (hx : x < y) : x ∉ S := by
  rw [← h.mem, mem_cons]
  rintro (rfl | hmem)
  · exact lt_irrefl _ hx
  · exact lt_asymm hx (h.head_lt x hmem)

lemma contains_eq (h : Lists S l) : contains x l = decide (x ∈ S) := by
  induction l generalizing S with
  | nil => simp [contains, ← h.mem]
  | cons y l ih =>
    unfold contains
    split_ifs with hlt heq
    · simp [h.notMem_of_lt hlt]
    · simp [← heq, ← h.mem]
    · rw [ih h.tail]
      simp [Ne.symm heq]

lemma insertKey_spec (h : Lists S l) :
    (insertKey x l).1 = decide (x ∉ S) ∧ Lists (insert x S) (insertKey x l).2 := by
  induction l generalizing S with
  | nil =>
    obtain rfl := h.eq_empty
    exact ⟨by simp [insertKey], pairwise_singleton _ _, by simp [insertKey]⟩
  | cons y l ih =>
    unfold insertKey
    split_ifs with hlt heq
    · refine ⟨by simp [h.notMem_of_lt hlt], pairwise_cons.mpr ⟨?_, h.sorted⟩, fun z => by simp [← h.mem]⟩
      intro z hz
      rcases mem_cons.mp hz with rfl | hz
      · exact hlt
      · exact hlt.trans (h.head_lt z hz)
    · have hx : x ∈ S := by rw [← h.mem, heq]; exact mem_cons_self
      rw [Finset.insert_eq_of_mem hx]
      exact ⟨by simp [hx], h⟩
    · obtain ⟨hres, hlists⟩ := ih h.tail
      refine ⟨by rw [hres]; simp [Ne.symm heq], pairwise_cons.mpr ⟨?_, hlists.sorted⟩, fun z => ?_⟩
      · intro z hz
        rw [hlists.mem, Finset.mem_insert, Finset.mem_erase, ← h.mem, mem_cons] at hz
        rcases hz with rfl | ⟨hne, rfl | hz⟩
        · exact lt_of_le_of_ne (not_lt.mp hlt) heq
        · exact absurd rfl hne
        · exact h.head_lt z hz
      · rw [mem_cons, hlists.mem, Finset.mem_insert, Finset.mem_insert, Finset.mem_erase, ← h.mem z, mem_cons]
        tauto

lemma eraseKey_spec (h : Lists S l) :
    (eraseKey x l).1 = decide (x ∈ S) ∧ Lists (S.erase x) (eraseKey x l).2 := by
  induction l generalizing S with
  | nil =>
    obtain rfl := h.eq_empty
    exact ⟨by simp [eraseKey], List.Pairwise.nil, by simp [eraseKey]⟩
  | cons y l ih =>
    unfold eraseKey
    split_ifs with hlt heq
    · have hx := h.notMem_of_lt hlt
      rw [Finset.erase_eq_of_notMem hx]
      exact ⟨by simp [hx], h⟩
    · subst heq
      exact ⟨by simp [← h.mem], h.tail⟩
    · obtain ⟨hres, hlists⟩ := ih h.tail
      refine ⟨by rw [hres]; simp [Ne.symm heq], pairwise_cons.mpr ⟨?_, hlists.sorted⟩, fun z => ?_⟩
      · intro z hz
        rw [hlists.mem, Finset.mem_erase, Finset.mem_erase, ← h.mem, mem_cons] at hz
        obtain ⟨-, hne, rfl | hz⟩ := hz
        · exact absurd rfl hne
        · exact h.head_lt z hz
      · rw [mem_cons, hlists.mem, Finset.mem_erase, Finset.mem_erase, Finset.mem_erase, ← h.mem z, mem_cons]
        constructor
        · rintro (rfl | ⟨hzx, hzy, hz⟩)
          · exact ⟨heq, .inl rfl⟩
          · exact ⟨hzx, hz⟩
        · rintro ⟨hzx, rfl | hz⟩
          · exact .inl rfl
          · exact .inr ⟨hzx, (h.head_lt z hz).ne', .inr hz⟩

lemma exec_spec (h : Lists S l) {op : SetOp ℕ} (hkey : op.key ≠ 0) :
    (exec l op).1 = op.answer S ∧ Lists (op.after S) (exec l op).2 := by
  cases op with
  | contains x => exact ⟨contains_eq h, h⟩
  | add x =>
    have hadd : exec l (.add x) = insertKey x l := if_neg hkey
    rw [hadd]
    exact insertKey_spec h
  | remove x =>
    have hremove : exec l (.remove x) = eraseKey x l := if_neg hkey
    rw [hremove]
    exact eraseKey_spec h

lemma replay_eq (h : Lists S l) {ops : List (SetOp ℕ)} (hkeys : ∀ op ∈ ops, op.key ≠ 0) :
    replay l ops = SetOp.answers S ops := by
  induction ops generalizing S l with
  | nil => rfl
  | cons op ops ih =>
    rw [forall_mem_cons] at hkeys
    obtain ⟨hres, hlists⟩ := exec_spec h hkeys.1
    rw [replay, SetOp.answers, hres, ih hlists hkeys.2]

end SmcPim.Checker
