import SmcPim.SpinList.Model

/-! # The loops of the spin-lock list -/

namespace SmcPim.SpinList

open List

open PimList (Allocator)

namespace LinkedList

variable {κ : Type} {l : LinkedList κ} {p q c : ℕ} {S : Finset ℕ} {x : κ} {nodes xs ys : List ℕ}

/-! ## Locks -/

def held (l : LinkedList κ) (S : Finset ℕ) : LinkedList κ :=
  { l with lock := fun a => decide (a ∈ S) || l.lock a }

structure Ready (l : LinkedList κ) (p : ℕ) : Prop where
  ne : p ≠ 0
  used : p ∈ l.used
  free : l.lock p = false

@[simp] lemma held_empty (l : LinkedList κ) : l.held ∅ = l := by
  simp [held]

lemma access_eq (hne : p ≠ 0) (hused : p ∈ l.used) : l.access p = .ok () := by
  rw [access, if_neg hne, if_pos hused]

lemma Ready.access (h : l.Ready p) : (l.held S).access p = .ok () := access_eq h.ne h.used

lemma Ready.getData (h : l.Ready p) : (l.held S).getData p = .ok (l.data p) := by
  rw [LinkedList.getData, h.access]
  rfl

lemma Ready.getNext (h : l.Ready p) : (l.held S).getNext p = .ok (l.next p) := by
  rw [LinkedList.getNext, h.access]
  rfl

lemma Ready.acquire (h : l.Ready p) (hS : p ∉ S) : (l.held S).acquire p = .ok
    (l.held (insert p S)) := by
  have hfree : (l.held S).lock p = false := by simp [held, hS, h.free]
  have hlock : Function.update (l.held S).lock p true = (l.held (insert p S)).lock := by
    funext a
    by_cases ha : a = p
    · simp [ha, held]
    · simp [ha, held]
  rw [LinkedList.acquire, h.access, ok_bind, hfree, hlock]
  rfl

lemma Ready.clear (h : l.Ready p) : (l.held S).clear p = .ok (l.held (S.erase p)) := by
  have hlock : Function.update (l.held S).lock p false = (l.held (S.erase p)).lock := by
    funext a
    by_cases ha : a = p
    · simp [ha, held, h.free]
    · simp [ha, held]
  rw [LinkedList.clear, h.access, ok_bind, hlock]
  rfl

def linked (l : LinkedList κ) (A : Allocator) (x : κ) (p c : ℕ) : LinkedList κ :=
  { l.newNode A x c with next := Function.update (l.newNode A x c).next p (A.new l.used) }

def inserted (l : LinkedList κ) (A : Allocator) (x : κ) (p c : ℕ) : LinkedList κ :=
  { l.linked A x p c with listSize := l.listSize + 1 }

def insertion (l : LinkedList κ) (A : Allocator) (x : κ) (p c : ℕ) : Except Fault (LinkedList κ × Bool) :=
  if l.listSize = intMax then .error .overflow else .ok (l.inserted A x p c, true)

def Behind (l : LinkedList κ) (p c : ℕ) : Prop := c = 0 ∨ l.Ready c ∧ c ≠ p

def pair (p c : ℕ) : Finset ℕ := if c = 0 then {p} else {p, c}

lemma acquireIf_held (h : c = 0 ∨ l.Ready c ∧ c ∉ S) :
    (l.held S).acquireIf c = .ok (l.held (if c = 0 then S else insert c S)) := by
  rcases h with rfl | ⟨hc, hS⟩
  · rfl
  · rw [acquireIf, if_neg hc.ne, if_neg hc.ne, hc.acquire hS]

lemma clearIf_held (h : c = 0 ∨ l.Ready c) : (l.held S).clearIf c = .ok
    (l.held (if c = 0 then S else S.erase c)) := by
  rcases h with rfl | hc
  · rfl
  · rw [clearIf, if_neg hc.ne, if_neg hc.ne, hc.clear]

lemma acquireIf_eq (h : l.Behind p c) : (l.held {p}).acquireIf c = .ok (l.held (pair p c)) := by
  rw [acquireIf_held (h.imp_right fun hc => ⟨hc.1, by simpa using hc.2⟩), pair, Finset.pair_comm]

variable {A : Allocator}

lemma Ready.inserted (h : l.Ready q) (x : κ) (p c : ℕ) : (l.inserted A x p c).Ready q := by
  have hne : q ≠ A.new l.used := fun heq => A.fresh l.used (heq ▸ h.used)
  exact ⟨h.ne, mem_cons_of_mem _ h.used, (Function.update_of_ne hne ..).trans h.free⟩

lemma newNode_held (hS : A.new l.used ∉ S) (x : κ) (c : ℕ) :
    (l.held S).newNode A x c = (l.newNode A x c).held S := by
  have hlock : ((l.held S).newNode A x c).lock = ((l.newNode A x c).held S).lock := by
    funext a
    by_cases ha : a = A.new l.used
    · simp [ha, newNode, held, hS]
    · simp [ha, newNode, held]
  simp only [newNode, held] at hlock ⊢
  rw [hlock]

lemma Behind.new_notMem (hp : l.Ready p) (hc : l.Behind p c) : A.new l.used ∉ pair p c := by
  have hfresh := A.fresh l.used
  rcases hc with rfl | ⟨hc, -⟩
  · simp only [pair, if_true, Finset.mem_singleton]
    exact fun heq => hfresh (heq ▸ hp.used)
  · simp only [pair, hc.ne, if_false, Finset.mem_insert, Finset.mem_singleton, not_or]
    exact ⟨fun heq => hfresh (heq ▸ hp.used), fun heq => hfresh (heq ▸ hc.used)⟩

lemma clear_pair (hp : l.Ready p) (hc : l.Behind p c) :
    ((l.held (pair p c)).clear p >>= fun l => l.clearIf c) = .ok l := by
  rw [hp.clear, ok_bind, clearIf_held (hc.imp_right And.left)]
  rcases hc with rfl | ⟨hc, hne⟩
  · simp [pair]
  · rw [if_neg hc.ne, pair, if_neg hc.ne, Finset.erase_insert (by simpa using hne.symm), Finset.erase_singleton,
      held_empty]

lemma insertBetween_eq (A : Allocator) (hp : l.Ready p) (hc : l.Behind p c) (x : κ) :
    insertBetween x A p c (l.held (pair p c)) = l.insertion A x p c := by
  have hset : ((l.newNode A x c).held (pair p c)).setNext p (A.new l.used) = .ok ((l.linked A x p c).held (pair p c)) := by
    rw [setNext, access_eq hp.ne (mem_cons_of_mem _ hp.used)]
    rfl
  have hgrow : ((l.linked A x p c).held (pair p c)).grow =
      if l.listSize = intMax then .error .overflow else .ok ((l.inserted A x p c).held (pair p c)) := rfl
  have hclear := clear_pair (hp.inserted (A := A) x p c) (hc.imp_right fun h => ⟨h.1.inserted x p c, h.2⟩)
  rw [insertBetween, newNode_held (hc.new_notMem hp)]
  change (setNext _ p (A.new l.used) >>= _) = _
  rw [hset, ok_bind, hgrow, insertion]
  split_ifs
  · rfl
  · change ((l.inserted A x p c).held (pair p c)).clear p >>= (fun l => l.clearIf c >>= fun l => .ok (l, true)) = _
    rw [← bind_assoc, hclear]
    rfl

def relinked (l : LinkedList κ) (p q : ℕ) : LinkedList κ := { l with next := Function.update l.next p q }

def deleted (l : LinkedList κ) (p : ℕ) : LinkedList κ := { l with used := l.used.erase p }

def unlinked (l : LinkedList κ) (p c : ℕ) : LinkedList κ := ((l.relinked p (l.next c)).deleted c).shrink

lemma Ready.relinked (h : l.Ready p) (q c : ℕ) : (l.relinked q c).Ready p := { h with }

lemma Ready.deleted (h : l.Ready p) (hne : p ≠ c) : (l.deleted c).Ready p :=
  ⟨h.ne, (mem_erase_of_ne hne).mpr h.used, h.free⟩

lemma Ready.shrink (h : l.Ready p) : l.shrink.Ready p := { h with }

lemma Ready.unlinked (h : l.Ready q) (hne : q ≠ c) (p : ℕ) : (l.unlinked p c).Ready q :=
  ((h.relinked p (l.next c)).deleted hne).shrink

lemma Ready.setNext (h : l.Ready p) (q : ℕ) : (l.held S).setNext p q = .ok
    ((l.relinked p q).held S) := by
  rw [LinkedList.setNext, h.access]
  rfl

lemma Ready.delete (h : l.Ready p) : (l.held S).delete p = .ok ((l.deleted p).held S) := by
  rw [LinkedList.delete, h.access]
  rfl

def headHeld (l : LinkedList κ) : LinkedList κ := { l with headLock := true }

@[simp] lemma headHeld_listSize (l : LinkedList κ) : l.headHeld.listSize = l.listSize := rfl

@[simp] lemma headHeld_head (l : LinkedList κ) : l.headHeld.head = l.head := rfl

@[simp] lemma held_listSize (l : LinkedList κ) (S : Finset ℕ) :
    (l.held S).listSize = l.listSize := rfl

@[simp] lemma held_head (l : LinkedList κ) (S : Finset ℕ) : (l.held S).head = l.head := rfl

lemma acquireHead_eq (h : l.headLock = false) : l.acquireHead = .ok l.headHeld := by
  rw [acquireHead, h]
  rfl

lemma clearHead_held (h : l.headLock = false) : (l.headHeld.held S).clearHead = l.held S := by
  obtain ⟨⟩ := l
  subst h
  rfl

lemma clearHead_headHeld (h : l.headLock = false) : l.headHeld.clearHead = l := by
  have := clearHead_held (S := ∅) h
  rwa [held_empty, held_empty] at this

/-! ## Parts of the list -/

structure Segment [LinearOrder κ] (l : LinkedList κ) (p : ℕ) (nodes : List ℕ) : Prop where
  list : Chain l.next p nodes 0
  ready : ∀ y ∈ nodes, l.Ready y
  sorted : Ascending l.data nodes

variable [LinearOrder κ]

namespace Segment

lemma head (h : l.Segment p (p :: ys)) : l.Ready p := h.ready p mem_cons_self

lemma tail (h : l.Segment p (q :: ys)) : l.Segment (l.next q) ys :=
  ⟨(Chain.cons_iff.mp h.list).2, fun y hy => h.ready y (mem_cons_of_mem q hy), (pairwise_cons.mp h.sorted).2⟩

lemma next_nil (h : l.Segment p [q]) : l.next q = 0 := Chain.nil_iff.mp h.tail.list

lemma next_cons (h : l.Segment p (q :: c :: ys)) : l.next q = c := (Chain.cons_iff.mp h.tail.list).1

lemma tail_cons (h : l.Segment p (q :: c :: ys)) : l.Segment c (c :: ys) := by
  have htail := h.tail
  rwa [h.next_cons] at htail

lemma lt (h : l.Segment p (q :: ys)) : ∀ y ∈ ys, l.data q < l.data y := (pairwise_cons.mp h.sorted).1

lemma ne (h : l.Segment p (q :: ys)) (hc : c ∈ ys) : c ≠ q := fun heq => absurd (h.lt c hc)
    (by simp [heq])

lemma not_mem_of_lt (h : l.Segment p (q :: ys)) (hx : x < l.data q) : x ∉ (q :: ys).map l.data := by
  intro hmem
  obtain ⟨y, hy, rfl⟩ := mem_map.mp hmem
  rcases mem_cons.mp hy with rfl | hy
  · exact lt_irrefl _ hx
  · exact lt_asymm hx (h.lt y hy)

lemma nodup (h : l.Segment p nodes) : nodes.Nodup := h.sorted.nodup_keys.of_map

end Segment

/-! ## `contains` -/

lemma advance_nil (h : l.Segment p [p]) : (l.held S).advance p = .ok (l.held S, p) := by
  rw [LinkedList.advance, h.head.getNext, ok_bind, h.next_nil, if_pos rfl]
  rfl

lemma advance_cons (h : l.Segment p (p :: c :: ys)) (hS : c ∉ S) :
    (l.held S).advance p = .ok (l.held (insert c S), c) := by
  have hc := h.tail_cons.head
  rw [LinkedList.advance, h.head.getNext, ok_bind, h.next_cons, if_neg hc.ne, hc.acquire hS]
  rfl

lemma containsLoop_turn (h : l.Ready p) (x : κ) (n : ℕ) :
    containsLoop x (n + 1) p (l.held S) =
      if x < l.data p then .ok (l.held (S.erase p), false)
      else if l.data p = x then .ok (l.held (S.erase p), true)
      else (l.held S).advance p >>= fun a => a.1.clear p >>= containsLoop x n a.2 := by
  rw [containsLoop, h.getData, ok_bind]
  split_ifs with hlt heq
  · rw [h.clear]
    rfl
  · rw [ok_bind, if_pos heq, h.clear]
    rfl
  · rw [ok_bind, if_neg heq]

lemma containsLoop_eq (h : l.Segment p (p :: ys)) (x : κ) :
    containsLoop x (ys.length + 1) p (l.held {p}) = .ok (l, decide (x ∈ (p :: ys).map l.data)) := by
  induction ys generalizing p with
  | nil =>
    rw [containsLoop_turn h.head, advance_nil h, ok_bind, h.head.clear, ok_bind]
    split_ifs with hlt heq
    · simp [hlt.ne]
    · simp [heq]
    · simp [containsLoop, Ne.symm heq]
      rfl
  | cons c ys ih =>
    have hc : c ≠ p := h.ne mem_cons_self
    have herase : (insert c {p} : Finset ℕ).erase p = {c} := by
      rw [Finset.pair_comm, Finset.erase_insert (by simpa using hc.symm)]
    rw [containsLoop_turn h.head, advance_cons h (by simpa using hc), ok_bind, h.head.clear, ok_bind, herase,
      length_cons, ih h.tail_cons]
    split_ifs with hlt heq
    · rw [decide_eq_false (h.not_mem_of_lt hlt), Finset.erase_singleton, held_empty]
    · simp [heq]
    · simp [Ne.symm heq]

/-! ## `add` -/

lemma Segment.behind (h : l.Segment p (p :: ys)) : l.Behind p (ys.headD 0) := by
  cases ys with
  | nil => exact .inl rfl
  | cons c ys => exact .inr ⟨h.tail_cons.head, h.ne mem_cons_self⟩

lemma Segment.next_eq (h : l.Segment p (p :: ys)) : l.next p = ys.headD 0 := by
  cases ys with
  | nil => exact h.next_nil
  | cons c ys => exact h.next_cons

lemma Segment.clear_pair (h : l.Segment p (p :: c :: ys)) :
    (l.held (pair p c)).clear p = .ok (l.held {c}) := by
  have hne : c ≠ p := h.ne mem_cons_self
  rw [h.head.clear, pair, if_neg h.tail_cons.head.ne, Finset.erase_insert (by simpa using hne.symm)]

lemma addLoop_turn (A : Allocator) (h : l.Segment p (p :: c :: ys)) (x : κ) (n : ℕ) :
    addLoop x A (n + 1) p c (l.held (pair p c)) =
      if x < l.data c then l.insertion A x p c
      else if l.data c = x then .ok (l, false)
      else addLoop x A n c (ys.headD 0) (l.held (pair c (ys.headD 0))) := by
  have hc := h.tail_cons.head
  have hclear := h.clear_pair
  rw [addLoop, hc.getData, ok_bind]
  split_ifs with hlt heq
  · exact insertBetween_eq A h.head h.behind x
  · rw [ok_bind, if_pos heq, hclear, ok_bind, hc.clear, Finset.erase_singleton, held_empty]
    rfl
  · rw [ok_bind, if_neg heq, hclear, ok_bind, hc.getNext, ok_bind, h.tail_cons.next_eq,
      acquireIf_eq h.tail_cons.behind, ok_bind]

lemma addLoop_eq (A : Allocator) (h : l.Segment p (p :: ys)) (hx : l.data p < x) :
    ∃ us q vs, p :: ys = us ++ q :: vs ∧ Parted l.data x (us ++ [q]) vs ∧
      addLoop x A ys.length p (ys.headD 0) (l.held (pair p (ys.headD 0))) =
        if x ∈ vs.map l.data then .ok (l, false) else l.insertion A x q (vs.headD 0) := by
  induction ys generalizing p with
  | nil =>
    refine ⟨[], p, [], rfl, ⟨by simpa using hx, by simp⟩, ?_⟩
    rw [if_neg (by simp)]
    exact insertBetween_eq A h.head h.behind x
  | cons c ys ih =>
    have hturn := addLoop_turn A h x ys.length
    have habove : x ≤ l.data c → ∀ y ∈ c :: ys, x ≤ l.data y := by
      intro hle
      rw [forall_mem_cons]
      exact ⟨hle, fun y hy => hle.trans (h.tail_cons.lt y hy).le⟩
    rw [headD_cons, length_cons, hturn]
    rcases lt_trichotomy x (l.data c) with hlt | heq | hgt
    · refine ⟨[], p, c :: ys, rfl, ⟨by simpa using hx, habove hlt.le⟩, ?_⟩
      rw [if_pos hlt, if_neg (h.tail_cons.not_mem_of_lt hlt)]
      rfl
    · refine ⟨[], p, c :: ys, rfl, ⟨by simpa using hx, habove heq.le⟩, ?_⟩
      rw [if_neg heq.not_lt, if_pos heq.symm, if_pos (by simp [heq])]
    · obtain ⟨us, q, vs, hsplit, hparted, hloop⟩ := ih h.tail_cons hgt
      refine ⟨p :: us, q, vs, by rw [hsplit]; rfl, ⟨?_, hparted.above⟩, ?_⟩
      · rw [cons_append, forall_mem_cons]
        exact ⟨hx, hparted.below⟩
      · rw [if_neg hgt.not_gt, if_neg hgt.ne, hloop]

lemma takeOut_eq (h : l.Segment p (p :: c :: ys)) :
    (do
      let next ← (l.held (pair p c)).getNext c
      let l ← (l.held (pair p c)).acquireIf next
      let l ← l.setNext p next
      let l ← l.delete c
      let l := l.shrink
      let l ← l.clear p
      let l ← l.clearIf (← l.getNext p)
      return (l, true)) = (.ok ((l.unlinked p c).held {c}, true) : Except Fault (LinkedList κ × Bool)) := by
  have hc := h.tail_cons.head
  have hne : c ≠ p := h.ne mem_cons_self
  have hp' := h.head.unlinked hne.symm p
  have hnext : (l.unlinked p c).next p = l.next c := Function.update_self ..
  have hbehind : l.next c = 0 ∨ l.Ready (l.next c) ∧ l.next c ≠ c ∧ l.next c ≠ p := by
    cases ys with
    | nil => exact .inl h.tail_cons.next_nil
    | cons d ys =>
      rw [h.tail_cons.next_cons]
      exact .inr ⟨h.tail_cons.tail_cons.head, h.tail_cons.ne mem_cons_self, h.ne (by simp)⟩
  rw [hc.getNext, ok_bind, pair, if_neg hc.ne,
    acquireIf_held (hbehind.imp_right fun hd => ⟨hd.1, by simp [hd.2.1, hd.2.2]⟩), ok_bind, h.head.setNext, ok_bind,
    (hc.relinked p _).delete, ok_bind]
  change (clear ((l.unlinked p c).held _) p >>= _) = _
  rw [hp'.clear, ok_bind, hp'.getNext, ok_bind, hnext,
    clearIf_held (hbehind.imp_right fun hd => hd.1.unlinked hd.2.1 p), ok_bind]
  have hlocks : ∀ T : Finset ℕ, T = (if l.next c = 0 then {p, c} else insert (l.next c) {p, c}) →
      (if l.next c = 0 then T.erase p else (T.erase p).erase (l.next c)) = {c} := by
    rintro T rfl
    rcases hbehind with hzero | ⟨hd, hdc, hdp⟩
    · simp only [hzero, if_true]
      exact Finset.erase_insert (by simpa using hne.symm)
    · simp only [hd.ne, if_false]
      ext a
      simp only [Finset.mem_erase, Finset.mem_insert, Finset.mem_singleton]
      constructor
      · tauto
      · rintro rfl
        exact ⟨hdc.symm, hne, .inr (.inr rfl)⟩
  rw [hlocks _ rfl]
  rfl

lemma removeLoop_turn (h : l.Segment p (p :: c :: ys)) (x : κ) (n : ℕ) :
    removeLoop x (n + 1) p c (l.held (pair p c)) =
      if x < l.data c then .ok (l, false)
      else if l.data c = x then .ok ((l.unlinked p c).held {c}, true)
      else (l.held {c}).advance c >>= fun a => removeLoop x n c a.2 a.1 := by
  have hc := h.tail_cons.head
  have hclear := h.clear_pair
  rw [removeLoop, hc.getData, ok_bind]
  split_ifs with hlt heq
  · rw [hclear, ok_bind, hc.clear, Finset.erase_singleton, held_empty]
    rfl
  · rw [ok_bind, if_pos heq]
    exact takeOut_eq h
  · rw [ok_bind, if_neg heq, hclear, ok_bind]

lemma removeLoop_eq (h : l.Segment p (p :: c :: ys)) (x : κ) :
    (x ∉ (c :: ys).map l.data ∧ removeLoop x (ys.length + 1) p c (l.held (pair p c)) = .ok (l, false)) ∨
      ∃ us q r vs, p :: c :: ys = us ++ q :: r :: vs ∧ l.data r = x ∧
        removeLoop x (ys.length + 1) p c (l.held (pair p c)) = .ok ((l.unlinked q r).held {r}, true) := by
  induction ys generalizing p c with
  | nil =>
    rw [removeLoop_turn h, advance_nil h.tail_cons, ok_bind]
    split_ifs with hlt heq
    · exact .inl ⟨h.tail_cons.not_mem_of_lt hlt, rfl⟩
    · exact .inr ⟨[], p, c, [], rfl, heq, rfl⟩
    · refine .inl ⟨by simpa using Ne.symm heq, ?_⟩
      simp only [length_nil]
      rw [removeLoop, h.tail_cons.head.clear, Finset.erase_singleton, held_empty]
      rfl
  | cons d ys ih =>
    have hd := h.tail_cons.tail_cons.head
    have hdc : d ≠ c := h.tail_cons.ne mem_cons_self
    have hpair : insert d {c} = pair c d := by rw [pair, if_neg hd.ne, Finset.pair_comm]
    rw [length_cons, removeLoop_turn h, advance_cons h.tail_cons (by simpa using hdc), ok_bind, hpair]
    split_ifs with hlt heq
    · exact .inl ⟨h.tail_cons.not_mem_of_lt hlt, rfl⟩
    · exact .inr ⟨[], p, c, d :: ys, rfl, heq, rfl⟩
    · rcases ih h.tail_cons with ⟨hx, hloop⟩ | ⟨us, q, r, vs, hsplit, hr, hloop⟩
      · refine .inl ⟨?_, hloop⟩
        rw [map_cons, mem_cons, not_or]
        exact ⟨Ne.symm heq, hx⟩
      · exact .inr ⟨p :: us, q, r, vs, by rw [hsplit]; rfl, hr, hloop⟩

end LinkedList

end SmcPim.SpinList
