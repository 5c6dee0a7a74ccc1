import SmcPim.Lib.Chain
import SmcPim.Lib.SetOps

/-!
# The linked list of the host

From `SW/HOST/app/linked_list/LinkedList.h`: an unsorted list whose loops run by the count of its
nodes.
-/

namespace SmcPim.PimList

open List Function

structure Allocator where
  new : List Nat → Nat
  pos : ∀ used, 0 < new used
  fresh : ∀ used, new used ∉ used

def Allocator.above : Allocator where
  new used := used.sum + 1
  pos _ := Nat.succ_pos _
  fresh used h := absurd (List.single_le_sum (fun _ _ => Nat.zero_le _) _ h) (by omega)

structure LinkedList (κ : Type) where
  data : Nat → κ
  next : Nat → Nat
  head : Nat
  listSize : Nat
  used : List Nat

namespace LinkedList

variable {κ : Type} [DecidableEq κ] (A : Allocator) (l : LinkedList κ) (x : κ)

/-! ## The functions -/

/-- The constructor, with any contents of the memory. -/
def make (data : Nat → κ) (next : Nat → Nat) : LinkedList κ :=
  { data, next, head := 0, listSize := 0, used := [] }

def seek : Nat → Nat → Option Bool
  | 0, _ => some false
  | n + 1, temp =>
    if temp ∈ l.used then
      if l.data temp = x then some true else seek n (l.next temp)
    else none

def contains : Option Bool :=
  if l.listSize = 0 then some false else l.seek x l.listSize l.head

def newNode : LinkedList κ × Nat :=
  let p := A.new l.used
  ({ l with
      data := Function.update l.data p x
      next := Function.update l.next p 0
      used := p :: l.used }, p)

def walk : Nat → Nat → Option Nat
  | 0, temp => if temp ∈ l.used then some temp else none
  | n + 1, temp => if temp ∈ l.used then walk n (l.next temp) else none

def add : Option (LinkedList κ × Bool) :=
  if l.listSize = 0 then
    let (l, node1) := l.newNode A x
    some ({ l with head := node1, listSize := 1 }, true)
  else do
    if ← l.contains x then some (l, false)
    else
      let (l, nodeMore) := l.newNode A x
      let temp ← l.walk (l.listSize - 1) l.head
      some ({ l with
        next := Function.update l.next temp nodeMore
        listSize := l.listSize + 1 }, true)

def removeAfter : Nat → Nat → Option (LinkedList κ × Bool)
  | 0, _ => some (l, false)
  | n + 1, temp =>
    if temp ∈ l.used ∧ l.next temp ∈ l.used then
      if x = l.data (l.next temp) then
        some ({ l with
          next := Function.update l.next temp (l.next (l.next temp))
          used := l.used.erase (l.next temp)
          listSize := l.listSize - 1 }, true)
      else removeAfter n (l.next temp)
    else none

def remove : Option (LinkedList κ × Bool) :=
  if l.listSize = 0 then some (l, false)
  else if l.head ∈ l.used then
    if l.data l.head = x then
      some ({ l with
        head := l.next l.head
        used := l.used.erase l.head
        listSize := l.listSize - 1 }, true)
    else l.removeAfter x (l.listSize - 1) l.head
  else none

def call : SetOp κ → Option (LinkedList κ × Bool)
  | .contains k => (l.contains k).map fun torf => (l, torf)
  | .add k => l.add A k
  | .remove k => l.remove k

/-! ## The list in the memory -/

structure Shape (nodes : List Nat) : Prop where
  list : Chain l.next l.head nodes 0
  size : nodes.length = l.listSize
  used : l.used.Perm nodes
  nodup : nodes.Nodup
  keys : (nodes.map l.data).Nodup

def content (nodes : List Nat) : Finset κ := (nodes.map l.data).toFinset

variable {A l x} {nodes xs ys : List Nat} {p : Nat} {op : SetOp κ}

lemma mem_content : x ∈ l.content nodes ↔ ∃ y ∈ nodes, l.data y = x := by
  unfold content
  rw [mem_toFinset, mem_map]

lemma Shape.card_content (h : l.Shape nodes) : (l.content nodes).card = l.listSize := by
  unfold content
  rw [toFinset_card_of_nodup h.keys, length_map, h.size]

omit [DecidableEq κ] in
lemma make_shape (data : Nat → κ) (next : Nat → Nat) : (make data next).Shape [] :=
  ⟨.nil _, rfl, .refl _, nodup_nil, nodup_nil⟩

lemma seek_eq (h : Chain l.next p nodes 0) (hused : ∀ y ∈ nodes, y ∈ l.used) :
    l.seek x nodes.length p = some (decide (x ∈ l.content nodes)) := by
  induction nodes generalizing p with
  | nil => rfl
  | cons y ys ih =>
    obtain ⟨rfl, h⟩ := Chain.cons_iff.mp h
    rw [forall_mem_cons] at hused
    rw [length_cons, seek, if_pos hused.1]
    by_cases hx : l.data p = x
    · rw [if_pos hx, decide_eq_true (mem_content.mpr ⟨p, mem_cons_self, hx⟩)]
    · rw [if_neg hx, ih h hused.2]
      have hiff : x ∈ l.content (p :: ys) ↔ x ∈ l.content ys := by
        simp [mem_content, hx]
      simp only [hiff]

lemma Shape.contains_eq (h : l.Shape nodes) (x : κ) :
    l.contains x = some (decide (x ∈ l.content nodes)) := by
  unfold contains
  split
  · have hnil : nodes = [] := length_eq_zero_iff.mp (by rw [h.size]; assumption)
    subst hnil
    rfl
  · rw [← h.size]
    exact seek_eq h.list fun y hy => h.used.mem_iff.mpr hy

omit [DecidableEq κ] in
lemma walk_eq {q : Nat} (h : Chain l.next p (xs ++ [q]) 0) (hused : ∀ y ∈ xs ++ [q], y ∈ l.used) :
    l.walk xs.length p = some q := by
  induction xs generalizing p with
  | nil =>
    obtain ⟨rfl, -⟩ := Chain.cons_iff.mp h
    exact if_pos (hused _ mem_cons_self)
  | cons y xs ih =>
    obtain ⟨rfl, h⟩ := Chain.cons_iff.mp h
    rw [cons_append, forall_mem_cons] at hused
    rw [length_cons, walk, if_pos hused.1]
    exact ih h hused.2

lemma Shape.append (h : l.Shape nodes) (hx : x ∉ l.content nodes) {l' : LinkedList κ} (hp : p ∉ nodes)
    (hlist : Chain l'.next l'.head (nodes ++ [p]) 0) (hsize : l'.listSize = l.listSize + 1)
    (hused : l'.used = p :: l.used) (hdata : l'.data = update l.data p x) :
    l'.Shape (nodes ++ [p]) ∧ l'.content (nodes ++ [p]) = insert x (l.content nodes) := by
  have hmap : nodes.map l'.data = nodes.map l.data := by
    refine map_congr_left fun y hy => ?_
    rw [hdata, update_of_ne]
    rintro rfl
    exact hp hy
  have hpx : l'.data p = x := by rw [hdata, update_self]
  refine ⟨⟨hlist, ?_, ?_, ?_, ?_⟩, ?_⟩
  · rw [length_append, h.size, hsize, length_singleton]
  · rw [hused]
    exact (h.used.cons p).trans (perm_append_singleton p nodes).symm
  · exact nodup_append.mpr ⟨h.nodup, nodup_singleton p, by
      rintro y hy z hz rfl
      exact hp (mem_singleton.mp hz ▸ hy)⟩
  · rw [map_append, hmap]
    refine nodup_append.mpr ⟨h.keys, nodup_singleton _, ?_⟩
    rintro y hy z hz rfl
    rw [map_singleton, mem_singleton, hpx] at hz
    exact hx (mem_toFinset.mpr (hz ▸ hy))
  · unfold content
    rw [map_append, hmap, map_singleton, hpx]
    ext y
    simp

lemma Shape.add_eq (h : l.Shape nodes) (A : Allocator) (x : κ) :
    (x ∈ l.content nodes ∧ l.add A x = some (l, false)) ∨
    (x ∉ l.content nodes ∧ ∃ l' nodes', l.add A x = some (l', true) ∧ l'.Shape nodes' ∧
      l'.content nodes' = insert x (l.content nodes)) := by
  have hp : A.new l.used ∉ nodes := fun hmem => A.fresh _ (h.used.mem_iff.mpr hmem)
  have hnext : ∀ y ∈ nodes, update l.next (A.new l.used) 0 y = l.next y := by
    intro y hy
    rw [update_of_ne]
    rintro rfl
    exact hp hy
  unfold add
  by_cases hzero : l.listSize = 0
  · -- The list is empty: the new node becomes its head.
    have hnil : nodes = [] := length_eq_zero_iff.mp (h.size.trans hzero)
    subst hnil
    rw [if_pos hzero]
    refine .inr ⟨by simp [content], _, [A.new l.used], rfl, ?_⟩
    refine h.append (l := l) (x := x) (by simp [content]) hp ?_ ?_ rfl rfl
    · simp
    · simp [hzero]
  · rw [if_neg hzero, h.contains_eq x]
    by_cases hx : x ∈ l.content nodes
    · left
      refine ⟨hx, ?_⟩
      simp [hx]
    · right
      refine ⟨hx, ?_⟩
      -- Otherwise the new node goes behind the last one.
      obtain ⟨xs, q, rfl⟩ : ∃ xs q, nodes = xs ++ [q] := by
        rcases eq_nil_or_concat nodes with rfl | ⟨xs, q, rfl⟩
        · exact absurd h.size.symm hzero
        · exact ⟨xs, q, concat_eq_append⟩
      have hlen : l.listSize - 1 = xs.length := by
        rw [← h.size, length_append, length_singleton, Nat.add_sub_cancel]
      have hchain := h.list.congr hnext
      have hwalk : (l.newNode A x).1.walk (l.listSize - 1) l.head = some q := by
        rw [hlen]
        exact walk_eq hchain fun y hy => mem_cons_of_mem _ (h.used.mem_iff.mpr hy)
      have hq : A.new l.used ≠ q := fun heq => hp (by simp [heq])
      refine ⟨{ (l.newNode A x).1 with
        next := update (l.newNode A x).1.next q (A.new l.used)
        listSize := l.listSize + 1 }, xs ++ [q] ++ [A.new l.used], ?_, h.append hx hp ?_ rfl rfl rfl⟩
      · simp only [decide_eq_false hx]
        change ((l.newNode A x).1.walk (l.listSize - 1) l.head >>= _) = _
        rw [hwalk]
        rfl
      · rw [append_assoc]
        refine hchain.insert h.nodup (update_self ..) ?_ fun y _ hy => update_of_ne hy ..
        rw [hchain.next_eq]
        exact (update_of_ne hq ..).trans (update_self ..)

lemma Shape.unlink (h : l.Shape (xs ++ p :: ys)) {l' : LinkedList κ}
    (hlist : Chain l'.next l'.head (xs ++ ys) 0) (hsize : l'.listSize = l.listSize - 1)
    (hused : l'.used = l.used.erase p) (hdata : l'.data = l.data) :
    l'.Shape (xs ++ ys) ∧ l'.content (xs ++ ys) = (l.content (xs ++ p :: ys)).erase (l.data p) := by
  have hsub : (xs ++ ys).Sublist (xs ++ p :: ys) :=
    (List.Sublist.refl xs).append (sublist_cons_self p ys)
  have hkeys := h.keys
  rw [map_append, map_cons, nodup_middle, nodup_cons, ← map_append] at hkeys
  refine ⟨⟨hlist, ?_, ?_, h.nodup.sublist hsub, hdata ▸ hkeys.2⟩, ?_⟩
  · rw [hsize, ← h.size]
    simp
  · rw [hused]
    have hperm := (h.used.trans perm_middle).erase p
    rwa [erase_cons_head] at hperm
  · rw [content, hdata]
    exact keySet_erase h.keys fun _ _ => rfl

lemma removeAfter_eq (h : l.Shape (xs ++ p :: ys)) (hbefore : ∀ y ∈ xs ++ [p], l.data y ≠ x) :
    (x ∉ l.content (xs ++ p :: ys) ∧ l.removeAfter x ys.length p = some (l, false)) ∨
    (x ∈ l.content (xs ++ p :: ys) ∧ ∃ l' nodes', l.removeAfter x ys.length p = some (l', true) ∧
      l'.Shape nodes' ∧ l'.content nodes' = (l.content (xs ++ p :: ys)).erase x) := by
  induction ys generalizing xs p with
  | nil =>
    refine .inl ⟨?_, rfl⟩
    rw [mem_content]
    rintro ⟨y, hy, hyx⟩
    exact hbefore y hy hyx
  | cons y ys ih =>
    have hnext : l.next p = y := h.list.next_eq
    have hused : ∀ z ∈ xs ++ p :: y :: ys, z ∈ l.used := fun z hz => h.used.mem_iff.mpr hz
    rw [length_cons, removeAfter, hnext, if_pos ⟨hused p (by simp), hused y (by simp)⟩]
    by_cases hx : x = l.data y
    · right
      rw [if_pos hx]
      have hshape : xs ++ p :: y :: ys = (xs ++ [p]) ++ y :: ys := by simp
      refine ⟨mem_content.mpr ⟨y, by simp, hx.symm⟩, _, xs ++ [p] ++ ys, rfl, ?_⟩
      rw [hshape, hx]
      rw [hshape] at h
      refine h.unlink ?_ rfl rfl rfl
      rw [← hshape] at h
      rw [append_assoc]
      exact h.list.remove h.nodup (update_self ..) fun z _ hz => update_of_ne hz ..
    · rw [if_neg hx]
      have hshape : xs ++ p :: y :: ys = (xs ++ [p]) ++ y :: ys := by simp
      rw [hshape] at h ⊢
      apply ih h
      intro z hz
      rcases mem_append.mp hz with hz | hz
      · exact hbefore z hz
      · rw [mem_singleton.mp hz]
        exact fun heq => hx heq.symm

lemma Shape.remove_eq (h : l.Shape nodes) (x : κ) :
    (x ∉ l.content nodes ∧ l.remove x = some (l, false)) ∨
    (x ∈ l.content nodes ∧ ∃ l' nodes', l.remove x = some (l', true) ∧ l'.Shape nodes' ∧
      l'.content nodes' = (l.content nodes).erase x) := by
  unfold remove
  cases nodes with
  | nil =>
    have hzero : l.listSize = 0 := h.size.symm
    rw [if_pos hzero]
    exact .inl ⟨by simp [content], rfl⟩
  | cons y ys =>
    have hnil : l.Shape ([] ++ y :: ys) := h
    have hhead : l.head = y := (Chain.cons_iff.mp h.list).1
    have hsize : l.listSize = ys.length + 1 := h.size.symm
    rw [if_neg (by omega), hhead, if_pos (h.used.mem_iff.mpr mem_cons_self)]
    by_cases hx : l.data y = x
    · rw [if_pos hx]
      refine .inr ⟨mem_content.mpr ⟨y, mem_cons_self, hx⟩, _, ys, rfl, ?_⟩
      rw [← hx]
      exact hnil.unlink (Chain.cons_iff.mp h.list).2 rfl rfl rfl
    · rw [if_neg hx, hsize, Nat.add_sub_cancel]
      exact removeAfter_eq hnil (by simpa using hx)

lemma Shape.call_eq (h : l.Shape nodes) (A : Allocator) (op : SetOp κ) :
    ∃ l' nodes', l.call A op = some (l', op.answer (l.content nodes)) ∧ l'.Shape nodes' ∧
      l'.content nodes' = op.after (l.content nodes) := by
  cases op with
  | contains k =>
    refine ⟨l, nodes, ?_, h, rfl⟩
    dsimp only [call]
    rw [h.contains_eq k]
    rfl
  | add k =>
    dsimp only [call, SetOp.answer, SetOp.after]
    obtain ⟨hk, heq⟩ | ⟨hk, l', nodes', heq, h', hcontent⟩ := h.add_eq A k
    · exact ⟨l, nodes, by simp [heq, hk], h, (Finset.insert_eq_of_mem hk).symm⟩
    · exact ⟨l', nodes', by simp [heq, hk], h', hcontent⟩
  | remove k =>
    dsimp only [call, SetOp.answer, SetOp.after]
    obtain ⟨hk, heq⟩ | ⟨hk, l', nodes', heq, h', hcontent⟩ := h.remove_eq k
    · exact ⟨l, nodes, by simp [heq, hk], h, (Finset.erase_eq_of_notMem hk).symm⟩
    · exact ⟨l', nodes', by simp [heq, hk], h', hcontent⟩

end LinkedList

end SmcPim.PimList
