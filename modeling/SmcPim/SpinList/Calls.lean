import SmcPim.SpinList.Loops

/-! # The spin-lock list is a set, with one exception -/

namespace SmcPim.SpinList

open List Function

open PimList (Allocator)

namespace LinkedList

variable {κ : Type} [LinearOrder κ] {l l' : LinkedList κ} {p q c n : ℕ} {S : Finset ℕ} {x : κ} {nodes xs ys : List ℕ}

/-! ## The list between calls -/

structure Shape (l : LinkedList κ) (nodes : List ℕ) : Prop where
  segment : l.Segment l.head nodes
  size : nodes.length = l.listSize
  used : l.used.Perm nodes
  headFree : l.headLock = false

def content (l : LinkedList κ) (nodes : List ℕ) : Finset κ := (nodes.map l.data).toFinset

lemma mem_content : x ∈ l.content nodes ↔ x ∈ nodes.map l.data := mem_toFinset

lemma Shape.card_content (h : l.Shape nodes) : (l.content nodes).card = l.listSize := by
  rw [content, toFinset_card_of_nodup h.segment.sorted.nodup_keys, length_map, h.size]

lemma make_shape (data : ℕ → κ) (next : ℕ → ℕ) (lock : ℕ → Bool) : (make data next lock).Shape [] :=
  ⟨⟨.nil _, by simp, List.Pairwise.nil⟩, rfl, .refl _, rfl⟩

lemma Shape.insert (h : l.Shape (xs ++ ys)) (hparted : Parted l.data x xs ys)
    (hx : x ∉ l.content (xs ++ ys))
    (hn : n ∉ l.used) (hne : n ≠ 0) (hlist : Chain l'.next l'.head (xs ++ n :: ys) 0)
    (hdata : l'.data = update l.data n x) (hlock : l'.lock = update l.lock n false)
    (hused : l'.used = n :: l.used) (hsize : l'.listSize = l.listSize + 1) (hhead : l'.headLock = false) :
    l'.Shape (xs ++ n :: ys) ∧ l'.content (xs ++ n :: ys) = Insert.insert x (l.content (xs ++ ys)) := by
  have hother : ∀ y ∈ xs ++ ys, y ≠ n := fun y hy heq => hn (heq ▸ (h.segment.ready y hy).used)
  have hkeep : ∀ y ∈ xs ++ ys, l'.data y = l.data y := fun y hy => by
    rw [hdata, update_of_ne (hother y hy)]
  have hkey : l'.data n = x := by rw [hdata, update_self]
  have hready : ∀ y ∈ xs ++ n :: ys, l'.Ready y := by
    intro y hy
    rw [mem_append, mem_cons] at hy
    by_cases heq : y = n
    · exact ⟨heq ▸ hne, by simp [hused, heq], by rw [hlock, heq, update_self]⟩
    · have hold := h.segment.ready y (by simp only [mem_append]; tauto)
      exact ⟨hold.ne, by simp [hused, hold.used], by rw [hlock, update_of_ne heq, hold.free]⟩
  have hsorted : Ascending l'.data (xs ++ n :: ys) := by
    have hmap : (xs ++ ys).map l'.data = (xs ++ ys).map l.data := map_congr_left hkeep
    refine (hparted.congr hkeep).insert (h.segment.sorted.congr hkeep) hkey ?_
    rw [hmap]
    exact fun hmem => hx (mem_content.mpr hmem)
  refine ⟨⟨⟨hlist, hready, hsorted⟩, ?_, ?_, hhead⟩, ?_⟩
  · rw [hsize, ← h.size, length_append, length_append, length_cons, Nat.add_assoc]
  · rw [hused]
    exact (h.used.cons n).trans perm_middle.symm
  · rw [content, keySet_insert hkeep, hkey]
    rfl

lemma Shape.unlink (h : l.Shape (xs ++ c :: ys)) (hlist : Chain l'.next l'.head (xs ++ ys) 0)
    (hdata : l'.data = l.data) (hlock : ∀ a ≠ c, l'.lock a = l.lock a) (hused : l'.used = l.used.erase c)
    (hsize : l'.listSize = l.listSize - 1) (hhead : l'.headLock = false) :
    l'.Shape (xs ++ ys) ∧ l'.content (xs ++ ys) = (l.content (xs ++ c :: ys)).erase (l.data c) := by
  have hsub : (xs ++ ys).Sublist (xs ++ c :: ys) := (List.Sublist.refl xs).append (sublist_cons_self c ys)
  have hnodup := h.segment.nodup
  rw [nodup_middle, nodup_cons] at hnodup
  have hready : ∀ y ∈ xs ++ ys, l'.Ready y := by
    intro y hy
    have hold := h.segment.ready y (hsub.subset hy)
    have hne : y ≠ c := fun heq => hnodup.1 (heq ▸ hy)
    exact ⟨hold.ne, by rw [hused]; exact (mem_erase_of_ne hne).mpr hold.used, by rw [hlock y hne, hold.free]⟩
  refine ⟨⟨⟨hlist, hready, hdata ▸ h.segment.sorted.sublist hsub⟩, ?_, ?_, hhead⟩, ?_⟩
  · rw [hsize, ← h.size]
    simp
  · rw [hused]
    have hperm := (h.used.trans perm_middle).erase c
    rwa [erase_cons_head] at hperm
  · rw [content, hdata]
    exact keySet_erase h.segment.sorted.nodup_keys fun _ _ => rfl

/-! ## The functions -/

lemma Segment.headHeld (h : l.Segment p nodes) : l.headHeld.Segment p nodes :=
  ⟨h.list, fun y hy => ⟨(h.ready y hy).ne, (h.ready y hy).used, (h.ready y hy).free⟩, h.sorted⟩

lemma Shape.eq_nil (h : l.Shape nodes) (hzero : l.listSize = 0) : nodes = [] :=
  length_eq_zero_iff.mp (h.size.trans hzero)

lemma Shape.cons (h : l.Shape nodes) (hzero : l.listSize ≠ 0) :
    ∃ ys, nodes = l.head :: ys ∧ l.listSize = ys.length + 1 ∧ l.Segment l.head (l.head :: ys) := by
  cases nodes with
  | nil => exact absurd h.size.symm hzero
  | cons p ys =>
    have hp := (Chain.cons_iff.mp h.segment.list).1
    subst hp
    exact ⟨ys, rfl, h.size.symm, h.segment⟩

lemma Segment.acquire_head (h : l.Segment p (p :: ys)) : l.headHeld.acquire p = .ok
    (l.headHeld.held {p}) := by
  have := h.headHeld.head.acquire (Finset.notMem_empty _)
  rwa [held_empty, insert_empty_eq] at this

lemma Segment.getData_head (h : l.Segment p (p :: ys)) : l.headHeld.getData p = .ok (l.data p) := by
  have := h.headHeld.head.getData (S := ∅)
  rwa [held_empty] at this

lemma Shape.contains_eq (h : l.Shape nodes) (x : κ) :
    l.contains x = .ok (l, decide (x ∈ l.content nodes)) := by
  rw [contains, acquireHead_eq h.headFree, ok_bind, headHeld_listSize]
  by_cases hzero : l.listSize = 0
  · obtain rfl := h.eq_nil hzero
    rw [if_pos hzero, clearHead_headHeld h.headFree]
    rfl
  · obtain ⟨ys, rfl, hsize, hseg⟩ := h.cons hzero
    rw [if_neg hzero, headHeld_head]
    dsimp only
    rw [hseg.acquire_head, ok_bind, clearHead_held h.headFree, held_listSize, hsize, containsLoop_eq hseg]
    simp only [mem_content]

lemma Shape.push (h : l.Shape nodes) (A : Allocator) (hx : ∀ y ∈ nodes, x < l.data y)
    (hnext : l'.next = update l.next (A.new l.used) l.head) (hhead : l'.head = A.new l.used)
    (hdata : l'.data = update l.data (A.new l.used) x)
    (hlock : l'.lock = update l.lock (A.new l.used) false) (hused : l'.used = A.new l.used :: l.used)
    (hsize : l'.listSize = l.listSize + 1) (hfree : l'.headLock = false) :
    l'.Shape (A.new l.used :: nodes) ∧ l'.content (A.new l.used :: nodes) = Insert.insert x (l.content nodes) := by
  have hfresh : A.new l.used ∉ l.used := A.fresh l.used
  have hnotin : x ∉ l.content nodes := by
    intro hmem
    obtain ⟨y, hy, rfl⟩ := mem_map.mp (mem_content.mp hmem)
    exact lt_irrefl _ (hx y hy)
  have hfront : l.Shape ([] ++ nodes) := h
  refine hfront.insert ⟨by simp, fun y hy => (hx y hy).le⟩ hnotin hfresh (A.pos l.used).ne' ?_ hdata hlock
    hused hsize hfree
  rw [nil_append, Chain.cons_iff, hnext, update_self]
  refine ⟨hhead, h.segment.list.congr fun y hy => update_of_ne ?_ ..⟩
  rintro rfl
  exact hfresh (h.segment.ready _ hy).used

lemma next_eq (h : l.Shape (xs ++ q :: ys)) : l.next q = ys.headD 0 := by
  rw [h.segment.list.next_eq]
  cases ys <;> rfl

lemma Shape.inserted (h : l.Shape (xs ++ [q] ++ ys)) (A : Allocator)
    (hparted : Parted l.data x (xs ++ [q]) ys) (hx : x ∉ l.content (xs ++ [q] ++ ys)) :
    (l.inserted A x q (ys.headD 0)).Shape (xs ++ [q] ++ A.new l.used :: ys) ∧
      (l.inserted A x q (ys.headD 0)).content (xs ++ [q] ++ A.new l.used :: ys) =
        Insert.insert x (l.content (xs ++ [q] ++ ys)) := by
  have hfresh : A.new l.used ∉ l.used := A.fresh l.used
  have hused : ∀ y ∈ xs ++ [q] ++ ys, y ≠ A.new l.used := fun y hy heq => hfresh (heq ▸ (h.segment.ready y hy).used)
  refine h.insert hparted hx hfresh (A.pos l.used).ne' ?_ rfl rfl rfl rfl h.headFree
  have hnodup := h.segment.nodup
  have hq : q ≠ A.new l.used := hused q (by simp)
  rw [← append_cons] at h hnodup hused ⊢
  have hkeep : ∀ y ∈ xs ++ q :: ys, y ≠ q → (l.inserted A x q (ys.headD 0)).next y = l.next y := fun y hy hne =>
    (update_of_ne hne ..).trans (update_of_ne (hused y hy) ..)
  refine h.segment.list.insert hnodup (update_self ..) ?_ hkeep
  rw [next_eq h]
  exact (update_of_ne hq.symm ..).trans (update_self ..)

lemma Shape.add_eq (h : l.Shape nodes) (A : Allocator) (x : κ) :
    (x ∈ l.content nodes ∧ l.add x A = .ok (l, false)) ∨
      x ∉ l.content nodes ∧
        (l.listSize = intMax ∧ l.add x A = .error .overflow ∨
          l.listSize ≠ intMax ∧ ∃ l' nodes', l.add x A = .ok (l', true) ∧ l'.Shape nodes' ∧
            l'.content nodes' = Insert.insert x (l.content nodes)) := by
  rw [add, acquireHead_eq h.headFree, ok_bind, headHeld_listSize]
  by_cases hzero : l.listSize = 0
  · -- The first node to be added.
    obtain rfl := h.eq_nil hzero
    rw [if_pos hzero]
    have hhead : l.head = 0 := Chain.nil_iff.mp h.segment.list
    refine .inr ⟨by simp [content], .inr ⟨by rw [hzero]; decide, _, [A.new l.used], rfl, ?_⟩⟩
    exact h.push A (by simp) (by rw [hhead]; rfl) rfl rfl rfl rfl (by rw [hzero]; rfl) rfl
  · obtain ⟨ys, rfl, hsize, hseg⟩ := h.cons hzero
    rw [if_neg hzero, headHeld_head, hseg.getData_head, ok_bind]
    rcases lt_trichotomy x (l.data l.head) with hlt | heq | hgt
    · -- A new head.
      have hx : ∀ y ∈ l.head :: ys, x < l.data y := by
        rw [forall_mem_cons]
        exact ⟨hlt, fun y hy => hlt.trans (hseg.lt y hy)⟩
      have hnotin : x ∉ l.content (l.head :: ys) := fun hmem => hseg.not_mem_of_lt hlt (mem_content.mp hmem)
      rw [if_neg hlt.ne, ok_bind, if_pos hlt]
      refine .inr ⟨hnotin, ?_⟩
      by_cases hmax : l.listSize = intMax
      · refine .inl ⟨hmax, ?_⟩
        rw [grow]
        change ((if l.listSize = intMax then _ else _) >>= _) = _
        rw [if_pos hmax]
        rfl
      · refine .inr ⟨hmax, ?_⟩
        rw [grow]
        change ∃ l' nodes', ((if l.listSize = intMax then _ else _) >>= _) = _ ∧ _
        rw [if_neg hmax]
        exact ⟨_, _, rfl, h.push A hx rfl rfl rfl rfl rfl rfl rfl⟩
    · rw [if_pos heq, clearHead_headHeld h.headFree]
      exact .inl ⟨mem_content.mpr (by simp [heq]), rfl⟩
    · -- The loop starts behind the head.
      obtain ⟨us, q, vs, hsplit, hparted, hloop⟩ := addLoop_eq A hseg hgt
      rw [if_neg hgt.ne', ok_bind, if_neg hgt.not_gt]
      dsimp only
      rw [hseg.acquire_head, ok_bind, held_head, headHeld_head, hseg.headHeld.head.getNext, ok_bind,
        hseg.headHeld.next_eq, acquireIf_eq hseg.headHeld.behind, ok_bind, clearHead_held h.headFree, held_listSize, hsize,
        Nat.add_sub_cancel, hloop, ← hsize]
      rw [hsplit, append_cons] at h ⊢
      have hmem : x ∈ l.content (us ++ [q] ++ vs) ↔ x ∈ vs.map l.data := by
        rw [mem_content, map_append, mem_append, or_iff_right]
        intro hmem
        obtain ⟨y, hy, rfl⟩ := mem_map.mp hmem
        exact lt_irrefl _ (hparted.below y hy)
      by_cases hx : x ∈ vs.map l.data
      · rw [if_pos hx]
        exact .inl ⟨hmem.mpr hx, rfl⟩
      · rw [if_neg hx, insertion]
        refine .inr ⟨mt hmem.mp hx, ?_⟩
        by_cases hmax : l.listSize = intMax
        · rw [if_pos hmax]
          exact .inl ⟨hmax, rfl⟩
        · rw [if_neg hmax]
          exact .inr ⟨hmax, _, _, rfl, h.inserted A hparted (mt hmem.mp hx)⟩

lemma Shape.pop (h : l.Shape (l.head :: ys))
    (hnext : l'.next = l.next) (hhead : l'.head = l.next l.head) (hdata : l'.data = l.data)
    (hlock : ∀ a ≠ l.head, l'.lock a = l.lock a) (hused : l'.used = l.used.erase l.head)
    (hsize : l'.listSize = l.listSize - 1) (hfree : l'.headLock = false) :
    l'.Shape ys ∧ l'.content ys = (l.content (l.head :: ys)).erase (l.data l.head) := by
  have hfront : l.Shape ([] ++ l.head :: ys) := h
  refine hfront.unlink ?_ hdata hlock hused hsize hfree
  rw [hnext, hhead]
  exact h.segment.tail.list

lemma Shape.unlinked (h : l.Shape (xs ++ q :: c :: ys)) :
    ((l.unlinked q c).held {c}).Shape (xs ++ q :: ys) ∧
      ((l.unlinked q c).held {c}).content (xs ++ q :: ys) = (l.content (xs ++ q :: c :: ys)).erase (l.data c) := by
  have hlist : Chain (l.unlinked q c).next l.head (xs ++ q :: ys) 0 :=
    h.segment.list.remove h.segment.nodup (update_self ..) fun y _ hy => update_of_ne hy ..
  rw [append_cons] at h hlist ⊢
  rw [append_cons xs q (c :: ys)]
  refine h.unlink hlist rfl (fun a ha => ?_) rfl rfl h.headFree
  simp [held, ha]
  rfl

lemma Segment.takeHead_eq (h : l.Segment l.head (l.head :: ys)) :
    (do
      let l ← ((l.headHeld.held (pair l.head (ys.headD 0))).setHead (ys.headD 0)).delete l.head
      let l ← l.shrink.clearIf l.shrink.head
      return (l.clearHead, true)) =
      (.ok ((((l.headHeld.setHead (ys.headD 0)).deleted l.head).shrink.held {l.head}).clearHead, true) :
        Except Fault (LinkedList κ × Bool)) := by
  have hhead : (l.headHeld.setHead (ys.headD 0)).Ready l.head := ⟨h.head.ne, h.head.used, h.head.free⟩
  have hdelete : ((l.headHeld.held (pair l.head (ys.headD 0))).setHead (ys.headD 0)).delete l.head =
      .ok (((l.headHeld.setHead (ys.headD 0)).deleted l.head).held (pair l.head (ys.headD 0))) := hhead.delete
  rw [hdelete, ok_bind]
  change (clearIf ((((l.headHeld.setHead (ys.headD 0)).deleted l.head).shrink).held _) (ys.headD 0) >>= _) = _
  have hready : ys.headD 0 = 0 ∨ ((l.headHeld.setHead (ys.headD 0)).deleted l.head).shrink.Ready (ys.headD 0) := by
    refine h.behind.imp_right fun hc => ?_
    have hset : (l.headHeld.setHead (ys.headD 0)).Ready (ys.headD 0) := ⟨hc.1.ne, hc.1.used, hc.1.free⟩
    exact (hset.deleted hc.2).shrink
  have hlocks : (if ys.headD 0 = 0 then pair l.head (ys.headD 0) else (pair l.head (ys.headD 0)).erase (ys.headD 0)) =
      {l.head} := by
    rcases h.behind with hc | ⟨hc, hne⟩
    · rw [if_pos hc, pair, if_pos hc]
    · rw [if_neg hc.ne, pair, if_neg hc.ne, Finset.pair_comm, Finset.erase_insert (by simpa using hne)]
  rw [clearIf_held hready, hlocks]
  rfl

lemma Shape.remove_eq (h : l.Shape nodes) (x : κ) :
    (nodes.length = 1 ∧ x ∉ l.content nodes ∧ l.remove x = .error .nullPointer) ∨
      ¬(nodes.length = 1 ∧ x ∉ l.content nodes) ∧
        ∃ l' nodes', l.remove x = .ok (l', decide (x ∈ l.content nodes)) ∧ l'.Shape nodes' ∧
          l'.content nodes' = (l.content nodes).erase x := by
  rw [remove, acquireHead_eq h.headFree, ok_bind, headHeld_listSize]
  by_cases hzero : l.listSize = 0
  · obtain rfl := h.eq_nil hzero
    rw [if_pos hzero, clearHead_headHeld h.headFree]
    exact .inr ⟨by simp, l, [], rfl, h, rfl⟩
  · obtain ⟨ys, rfl, hsize, hseg⟩ := h.cons hzero
    rw [if_neg hzero, headHeld_head]
    dsimp only
    rw [hseg.acquire_head, ok_bind, held_head, headHeld_head, hseg.headHeld.head.getData, ok_bind]
    by_cases hx : l.data l.head = x
    · have hin : x ∈ l.content (l.head :: ys) := mem_content.mpr (by simp [hx])
      have hbehind := hseg.headHeld.behind
      rw [if_pos (show l.headHeld.data l.head = x from hx), hseg.headHeld.head.getNext, ok_bind, hseg.headHeld.next_eq,
        acquireIf_eq hbehind, ok_bind, hseg.takeHead_eq, decide_eq_true hin]
      refine .inr ⟨fun hnot => hnot.2 hin, _, ys, rfl, ?_⟩
      rw [← hx]
      refine h.pop rfl hseg.next_eq.symm rfl (fun a ha => ?_) rfl rfl rfl
      simp [clearHead, held, ha]
      rfl
    · rw [if_neg (show ¬l.headHeld.data l.head = x from hx), clearHead_held h.headFree, hseg.head.getNext, ok_bind,
        hseg.next_eq]
      cases ys with
      | nil =>
        refine .inl ⟨rfl, by simp [content, Ne.symm hx], ?_⟩
        rw [headD_nil, acquireIf, if_pos rfl, ok_bind, held_listSize, hsize]
        rfl
      | cons c ys =>
        have hc := hseg.tail_cons.head
        have hfree : (l.held {l.head}).lock c = false := by
          simp [held, hc.free, hseg.ne mem_cons_self]
        refine .inr ⟨by simp, ?_⟩
        have hacquire : (l.held {l.head}).acquireIf c = .ok (l.held (pair l.head c)) := acquireIf_eq hseg.behind
        rw [headD_cons, if_pos hc.ne, hc.access, ok_bind, hfree, if_neg Bool.false_ne_true, hacquire, ok_bind,
          held_listSize, hsize, Nat.add_sub_cancel, length_cons]
        rcases removeLoop_eq hseg x with ⟨hnot, hloop⟩ | ⟨us, q, r, vs, hsplit, hr, hloop⟩
        · have hout : x ∉ l.content (l.head :: c :: ys) := by
            rw [mem_content, map_cons, mem_cons, not_or]
            exact ⟨Ne.symm hx, hnot⟩
          rw [hloop, decide_eq_false hout, Finset.erase_eq_of_notMem hout]
          exact ⟨l, _, rfl, h, rfl⟩
        · have hin : x ∈ l.content (l.head :: c :: ys) := by
            rw [mem_content, hsplit]
            simp [hr]
          rw [hloop, decide_eq_true hin, hsplit, ← hr]
          rw [hsplit] at h
          exact ⟨_, _, rfl, h.unlinked⟩

/-! ## Calls in a row -/

def Quiet (l : LinkedList κ) : Prop :=
  l.headLock = false ∧
    ∃ nodes, Chain l.next l.head nodes 0 ∧ 0 ∉ nodes ∧ nodes.length = l.listSize ∧ ∀ p ∈ nodes, l.lock p = false

/-- Every call returns with the answer of a set, and leaves the list quiet. -/
def Behaves : LinkedList κ → Finset κ → List (SetOp κ × Allocator) → Prop
  | _, _, [] => True
  | l, S, (op, A) :: calls => ∃ l', l.call A op = .ok (l', op.answer S) ∧ l'.Quiet ∧ Behaves l' (op.after S) calls

/-- The key to be removed is there or the list has not one node, and there is room to count a new key. -/
def Allowed (S : Finset κ) : SetOp κ → Prop
  | .contains _ => True
  | .add x => x ∈ S ∨ S.card ≠ intMax
  | .remove x => x ∈ S ∨ S.card ≠ 1

instance (S : Finset κ) : (op : SetOp κ) → Decidable (Allowed S op)
  | .contains _ => .isTrue trivial
  | .add _ => inferInstanceAs (Decidable (_ ∨ _))
  | .remove _ => inferInstanceAs (Decidable (_ ∨ _))

def AllAllowed : Finset κ → List (SetOp κ) → Prop
  | _, [] => True
  | S, op :: ops => Allowed S op ∧ AllAllowed (op.after S) ops

lemma Shape.quiet (h : l.Shape nodes) : l.Quiet :=
  ⟨h.headFree, nodes, h.segment.list, fun hzero => (h.segment.ready 0 hzero).ne rfl, h.size,
    fun p hp => (h.segment.ready p hp).free⟩

lemma Shape.call (h : l.Shape nodes) (A : Allocator) (op : SetOp κ) :
    (¬Allowed (l.content nodes) op ∧ ∃ e, l.call A op = .error e) ∨
      Allowed (l.content nodes) op ∧ ∃ l' nodes', l.call A op = .ok (l', op.answer (l.content nodes)) ∧
        l'.Shape nodes' ∧ l'.content nodes' = op.after (l.content nodes) := by
  cases op with
  | contains x => exact .inr ⟨trivial, l, nodes, h.contains_eq x, h, rfl⟩
  | add x =>
    rcases h.add_eq A x with ⟨hx, hadd⟩ | ⟨hx, ⟨hmax, hadd⟩ | ⟨hmax, l', nodes', hadd, hshape, hcontent⟩⟩
    · refine .inr ⟨.inl hx, l, nodes, ?_, h, (Finset.insert_eq_of_mem hx).symm⟩
      simpa [LinkedList.call, SetOp.answer, hx] using hadd
    · refine .inl ⟨?_, .overflow, hadd⟩
      rw [Allowed, h.card_content, not_or, not_not]
      exact ⟨hx, hmax⟩
    · refine .inr ⟨.inr (h.card_content ▸ hmax), l', nodes', ?_, hshape, hcontent⟩
      simpa [LinkedList.call, SetOp.answer, hx] using hadd
  | remove x =>
    have hone : (l.content nodes).card = nodes.length := h.card_content.trans h.size.symm
    rcases h.remove_eq x with ⟨hlength, hx, hremove⟩ | ⟨hnot, l', nodes', hremove, hshape, hcontent⟩
    · refine .inl ⟨?_, .nullPointer, hremove⟩
      rw [Allowed, hone, not_or, not_not]
      exact ⟨hx, hlength⟩
    · refine .inr ⟨?_, l', nodes', hremove, hshape, hcontent⟩
      rw [Allowed, hone]
      by_contra hneg
      exact hnot ⟨not_not.mp (not_or.mp hneg).2, (not_or.mp hneg).1⟩

lemma Shape.behaves_iff (h : l.Shape nodes) (calls : List (SetOp κ × Allocator)) :
    Behaves l (l.content nodes) calls ↔ AllAllowed (l.content nodes) (calls.map Prod.fst) := by
  induction calls generalizing l nodes with
  | nil => exact Iff.rfl
  | cons a calls ih =>
    obtain ⟨op, A⟩ := a
    rw [Behaves, map_cons, AllAllowed]
    rcases h.call A op with ⟨hnot, e, herror⟩ | ⟨hallowed, l', nodes', hok, hshape, hcontent⟩
    · constructor
      · rintro ⟨l', hok, -⟩
        rw [herror] at hok
        cases hok
      · rintro ⟨hallowed, -⟩
        exact absurd hallowed hnot
    · have hrest := ih hshape
      rw [hcontent] at hrest
      constructor
      · rintro ⟨l'', hok', -, hbehaves⟩
        obtain rfl : l' = l'' := (Prod.mk.inj (Except.ok.inj (hok.symm.trans hok'))).1
        exact ⟨hallowed, hrest.mp hbehaves⟩
      · rintro ⟨-, hall⟩
        exact ⟨l', hok, hshape.quiet, hrest.mpr hall⟩

/-- Calls behave if a missing key meets no list of one node, and a new one no list of 2^31 - 1. -/
theorem calls_behave_iff (data : ℕ → κ) (next : ℕ → ℕ) (lock : ℕ → Bool)
    (calls : List (SetOp κ × Allocator)) :
    Behaves (make data next lock) ∅ calls ↔ AllAllowed ∅ (calls.map Prod.fst) :=
  (make_shape data next lock).behaves_iff calls

/-- A list of the key 5, from which 6 is removed. -/
theorem remove_of_one :
    let l : LinkedList ℕ := make (fun _ => 0) (fun _ => 0) (fun _ => false)
    (l.add 5 .above >>= fun a => a.1.remove 6) = .error .nullPointer ∧
      ¬Behaves l ∅ [(.add 5, .above), (.remove 6, .above)] := by
  refine ⟨rfl, fun h => ?_⟩
  have hall := ((make_shape _ _ _).behaves_iff _).mp h
  exact absurd hall.2.1 (by decide)

end LinkedList

end SmcPim.SpinList
