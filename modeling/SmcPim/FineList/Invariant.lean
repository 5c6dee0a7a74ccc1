import SmcPim.FineList.Model
import SmcPim.Lib.Chain

/-! # What each thread may rely on -/

namespace SmcPim.FineList

open List

variable {α κ τ : Type} [LinearOrder κ] {E : Ends α}
  {h h' : Heap α κ τ} {s s' : State α κ τ} {nodes nodes' : List α} {op : SetOp κ} {loc loc' : Loc α}
  {t u : τ} {p c n : α} {x : κ}

/-! ## The nodes of a thread -/

def held (op : SetOp κ) : Loc α → List α
  | .lockHead | .ret _ => []
  | .advance curr => [curr]
  | .lockCurr pred _ => [pred]
  | .test pred curr =>
    match op with
    | .contains _ => [curr]
    | .add _ | .remove _ => [pred, curr]
  | .unlockPred pred curr | .release pred curr | .create pred curr | .setNext pred curr _
  | .link pred curr _ | .readNext pred curr | .unlink pred curr _ | .unlockCurr pred curr
  | .unlockBoth pred curr _ => [pred, curr]
  | .delete pred _ => [pred]
  | .unlockLast node _ => [node]

/-- The node that only this thread can reach: not yet in the list, or no longer. -/
def owned : Loc α → Option α
  | .setNext _ _ node1 | .link _ _ node1 => some node1
  | .unlockCurr _ curr | .delete _ curr => some curr
  | _ => none

def awaited (E : Ends α) : Loc α → Option α
  | .lockHead => some E.head
  | .lockCurr _ curr => some curr
  | _ => none

def Thread.held : Thread α κ → List α
  | .idle => []
  | .busy op loc => FineList.held op loc

def Thread.owned : Thread α κ → Option α
  | .idle => none
  | .busy _ loc => FineList.owned loc

/-! ## The list -/

structure Linked (E : Ends α) (h : Heap α κ τ) (nodes : List α) : Prop where
  list : Chain h.next E.head (E.head :: nodes) E.tail
  sorted : Ascending h.data nodes
  head : E.head ∉ nodes
  tail : E.tail ∉ nodes
  live : ∀ p ∈ E.head :: nodes ++ [E.tail], p ∈ h.live

def keys (h : Heap α κ τ) (nodes : List α) : Finset κ := (nodes.map h.data).toFinset

def Reached (E : Ends α) (h : Heap α κ τ) (nodes : List α) (x : κ) (p : α) : Prop :=
  p ∈ E.head :: nodes ∧ (p = E.head ∨ h.data p < x)

def Past (E : Ends α) (h : Heap α κ τ) (nodes : List α) (x : κ) (c : α) : Prop :=
  ∀ y ∈ nodes, c = E.tail ∨ h.data y < h.data c → h.data y < x

def Private (E : Ends α) (h : Heap α κ τ) (nodes : List α) (p : α) : Prop :=
  p ∈ h.live ∧ p ∉ E.head :: nodes ++ [E.tail]

def Gap (E : Ends α) (h : Heap α κ τ) (nodes : List α) (x : κ) (p c : α) : Prop :=
  Reached E h nodes x p ∧ h.next p = c ∧ (c = E.tail ∨ x < h.data c)

def Found (E : Ends α) (h : Heap α κ τ) (nodes : List α) (x : κ) (p c : α) : Prop :=
  p ∈ E.head :: nodes ∧ h.next p = c ∧ c ∈ nodes ∧ h.data c = x

def At (E : Ends α) (h : Heap α κ τ) (nodes : List α) (op : SetOp κ) : Loc α → Prop
  | .lockHead => True
  | .advance curr => Reached E h nodes op.key curr
  | .lockCurr pred curr => Reached E h nodes op.key pred ∧ h.next pred = curr
  | .unlockPred pred curr =>
    Reached E h nodes op.key pred ∧ h.next pred = curr ∧ op = .contains op.key
  | .test pred curr =>
    match op with
    | .contains x => curr ∈ nodes ++ [E.tail] ∧ Past E h nodes x curr
    | .add x | .remove x => Reached E h nodes x pred ∧ h.next pred = curr
  | .release pred curr =>
    Reached E h nodes op.key pred ∧ h.next pred = curr ∧ Reached E h nodes op.key curr
  | .create pred curr => Gap E h nodes op.key pred curr ∧ op = .add op.key
  | .setNext pred curr node1 =>
    Gap E h nodes op.key pred curr ∧ op = .add op.key ∧ Private E h nodes node1 ∧
      h.data node1 = op.key
  | .link pred curr node1 =>
    Gap E h nodes op.key pred curr ∧ op = .add op.key ∧ Private E h nodes node1 ∧
      h.data node1 = op.key ∧ h.next node1 = curr
  | .readNext pred curr => Found E h nodes op.key pred curr ∧ op = .remove op.key
  | .unlink pred curr succ =>
    Found E h nodes op.key pred curr ∧ op = .remove op.key ∧ h.next curr = succ
  | .unlockCurr pred curr => pred ∈ E.head :: nodes ∧ Private E h nodes curr
  | .delete pred curr => pred ∈ E.head :: nodes ∧ Private E h nodes curr
  | .unlockBoth pred curr _ =>
    pred ∈ E.head :: nodes ∧ curr ∈ nodes ++ [E.tail] ∧ pred ≠ curr
  | .unlockLast node _ => node ∈ E.head :: nodes ++ [E.tail]
  | .ret _ => True

structure Inv (E : Ends α) (s : State α κ τ) (nodes : List α) : Prop where
  linked : Linked E s.heap nodes
  locks : ∀ t p, s.heap.lock p = some t ↔ p ∈ (s.thread t).held
  knows : ∀ t op loc, s.thread t = .busy op loc → At E s.heap nodes op loc
  apart : ∀ t u p, t ≠ u → (s.thread t).owned = some p → (s.thread u).owned ≠ some p

/-! ## Lists with both ends -/

namespace Linked

lemma nodup (hl : Linked E h nodes) : (E.head :: nodes ++ [E.tail]).Nodup := by
  have hnodup : nodes.Nodup := hl.sorted.nodup_keys.of_map
  refine nodup_append.mpr ⟨nodup_cons.mpr ⟨hl.head, hnodup⟩, nodup_singleton _, ?_⟩
  rintro y hy z hz rfl
  rw [mem_singleton.mp hz] at hy
  rcases mem_cons.mp hy with heq | hy
  · exact E.ne heq.symm
  · exact hl.tail hy

section
variable (hl : Linked E h nodes) (hp : p ∈ E.head :: nodes)
include hl hp

lemma split :
    ∃ xs ys, E.head :: nodes = xs ++ p :: ys ∧ h.next p = (ys ++ [E.tail]).head (by simp) := by
  obtain ⟨xs, ys, heq⟩ := append_of_mem hp
  have hlist := hl.list
  rw [heq] at hlist
  exact ⟨xs, ys, heq, hlist.next_eq⟩

lemma next_mem : h.next p ∈ nodes ++ [E.tail] := by
  obtain ⟨xs, ys, heq, hnext⟩ := hl.split hp
  rw [hnext]
  cases ys with
  | nil => simp
  | cons y ys =>
    have hy : y ∈ E.head :: nodes := by simp [heq]
    rcases mem_cons.mp hy with rfl | hy
    · have hnodup := (nodup_append.mp hl.nodup).1
      rw [heq] at hnodup
      cases xs with
      | nil | cons x xs =>
        obtain ⟨rfl, -⟩ := cons.inj heq
        simp at hnodup
    · simp [hy]

lemma next_ne : h.next p ≠ p := by
  obtain ⟨xs, ys, heq, hnext⟩ := hl.split hp
  have hnodup := hl.nodup
  rw [heq, append_assoc, cons_append] at hnodup
  have hp := (nodup_cons.mp (nodup_append.mp hnodup).2.1).1
  rw [hnext]
  exact fun hself => hp (hself ▸ head_mem _)

end

lemma mem_live (hl : Linked E h nodes) (hp : p ∈ nodes ++ [E.tail]) : p ∈ h.live :=
  hl.live p (mem_cons_of_mem _ hp)

lemma not_before {data : α → κ} {tail y : α} {ys : List α} (hs : Ascending data ys)
    (htail : tail ∉ ys) (hy : y ∈ ys) (hc : c = (ys ++ [tail]).head (by simp)) :
    ¬ (c = tail ∨ data y < data c) := by
  cases ys with
  | nil => simp at hy
  | cons z zs =>
    obtain rfl : c = z := hc
    rintro (rfl | hlt)
    · exact htail mem_cons_self
    · rcases mem_cons.mp hy with rfl | hy
      · exact lt_irrefl _ hlt
      · exact lt_asymm hlt ((pairwise_cons.mp hs).1 y hy)

lemma past (hl : Linked E h nodes) (hp : Reached E h nodes x p) : Past E h nodes x (h.next p) := by
  obtain ⟨hmem, hlt⟩ := hp
  obtain ⟨xs, ys, heq, hnext⟩ := hl.split hmem
  intro y hy hbefore
  cases xs with
  | nil =>
    obtain ⟨rfl, rfl⟩ := cons.inj heq
    exact absurd hbefore (not_before hl.sorted hl.tail hy hnext)
  | cons x' xs =>
    obtain ⟨rfl, rfl⟩ := cons.inj heq
    have hdata : h.data p < x := by
      rcases hlt with rfl | hlt
      · exact absurd (by simp) hl.head
      · exact hlt
    obtain ⟨-, hsorted, hxs⟩ := pairwise_append.mp hl.sorted
    rcases mem_append.mp hy with hy | hy
    · exact lt_trans (hxs y hy p mem_cons_self) hdata
    · rcases mem_cons.mp hy with rfl | hy
      · exact hdata
      · have htail : E.tail ∉ ys := fun hmem => hl.tail (by simp [hmem])
        exact absurd hbefore (not_before (pairwise_cons.mp hsorted).2 htail hy hnext)

lemma not_mem_keys (hpast : Past E h nodes x c) (hc : c = E.tail ∨ x < h.data c) :
    x ∉ keys h nodes := by
  intro hmem
  obtain ⟨y, hy, rfl⟩ := mem_map.mp (mem_toFinset.mp hmem)
  exact absurd (hpast y hy hc) (lt_irrefl _)

end Linked

lemma mem_keys (hc : c ∈ nodes) (hx : h.data c = x) : x ∈ keys h nodes :=
  mem_toFinset.mpr (mem_map.mpr ⟨c, hc, hx⟩)

lemma compare_spec (hc : c ∈ nodes ++ [E.tail]) (hpast : Past E h nodes x c) :
    (c = E.tail ∨ x < h.data c) ∧ x ∉ keys h nodes ∨
      (c ≠ E.tail ∧ ¬x < h.data c ∧ c ∈ nodes) ∧ (h.data c = x ∨ h.data c ≠ x ∧ Reached E h nodes x c) := by
  by_cases hend : c = E.tail ∨ x < h.data c
  · exact .inl ⟨hend, Linked.not_mem_keys hpast hend⟩
  · obtain ⟨htail, hlt⟩ := not_or.mp hend
    have hmem : c ∈ nodes := by simpa [htail] using hc
    refine .inr ⟨⟨htail, hlt, hmem⟩, ?_⟩
    by_cases heq : h.data c = x
    · exact .inl heq
    · exact .inr ⟨heq, mem_cons_of_mem _ hmem, .inr (lt_of_le_of_ne (not_lt.mp hlt) heq)⟩

section
variable [DecidableEq α]

lemma branch_end (hend : c = E.tail ∨ op.key < h.data c) :
    branch E h p c op =
      match op with
      | .contains _ => .unlockLast c false
      | .add _ => .create p c
      | .remove _ => .unlockBoth p c false := by
  rcases hend with htail | hlt
  · cases op <;> simp only [branch, if_pos htail]
  · cases op <;> rw [SetOp.key] at hlt <;> simp only [branch, if_pos hlt, ite_self]

lemma branch_found (htail : c ≠ E.tail) (heq : h.data c = op.key) :
    branch E h p c op =
      match op with
      | .contains _ => .unlockLast c true
      | .add _ => .unlockBoth p c false
      | .remove _ => .readNext p c := by
  cases op <;> rw [SetOp.key] at heq <;> simp [branch, htail, heq]

lemma branch_past (htail : c ≠ E.tail) (hlt : ¬op.key < h.data c) (hne : h.data c ≠ op.key) :
    branch E h p c op =
      match op with
      | .contains _ => .advance c
      | .add _ | .remove _ => .release p c := by
  cases op <;> rw [SetOp.key] at hlt hne <;> simp [branch, htail, hlt, hne, Ne.symm hne]

end

/-! ## Steps of other threads -/

structure Frame (E : Ends α) (h h' : Heap α κ τ) (nodes nodes' : List α) (hd : List α)
    (ow : Option α) : Prop where
  next : ∀ p ∈ hd, h'.next p = h.next p
  ownNext : ∀ p, ow = some p → h'.next p = h.next p
  data : ∀ p ∈ h.live, h'.data p = h.data p
  kept : ∀ p ∈ hd, p ∈ nodes → p ∈ nodes'
  own : ∀ p, ow = some p → Private E h nodes p → Private E h' nodes' p
  past : ∀ x, ∀ c ∈ hd, c ∈ nodes ++ [E.tail] → Past E h nodes x c → Past E h' nodes' x c

namespace Frame

variable {hd : List α} {ow : Option α}

section
variable (hf : Frame E h h' nodes nodes' hd ow)
include hf

lemma mem (hp : p ∈ hd) (hmem : p ∈ E.head :: nodes) : p ∈ E.head :: nodes' := by
  rcases mem_cons.mp hmem with rfl | hmem
  · exact mem_cons_self
  · exact mem_cons_of_mem _ (hf.kept p hp hmem)

lemma mem_end (hp : p ∈ hd) (hmem : p ∈ nodes ++ [E.tail]) : p ∈ nodes' ++ [E.tail] := by
  rcases mem_append.mp hmem with hmem | hmem
  · exact mem_append_left _ (hf.kept p hp hmem)
  · exact mem_append_right _ hmem

section
variable (hl : Linked E h nodes) (hp : p ∈ hd)
include hl hp

lemma reached (hr : Reached E h nodes x p) : Reached E h' nodes' x p := by
  refine ⟨hf.mem hp hr.1, hr.2.imp_right ?_⟩
  rw [hf.data p (hl.live p (mem_append_left _ hr.1))]
  exact id

lemma gap (hg : Gap E h nodes x p c) : Gap E h' nodes' x p c := by
  obtain ⟨hr, rfl, hc⟩ := hg
  refine ⟨hf.reached hl hp hr, hf.next p hp, hc.imp_right ?_⟩
  rw [hf.data _ (hl.mem_live (hl.next_mem hr.1))]
  exact id

lemma found (hc : c ∈ hd) (hg : Found E h nodes x p c) : Found E h' nodes' x p c := by
  obtain ⟨hmem, hnext, hcmem, hx⟩ := hg
  refine ⟨hf.mem hp hmem, (hf.next p hp).trans hnext, hf.kept c hc hcmem, ?_⟩
  rw [hf.data c (hl.mem_live (mem_append_left _ hcmem)), hx]

end

end

lemma at_of_at (hf : Frame E h h' nodes nodes' (held op loc) (owned loc)) (hl : Linked E h nodes)
    (hat : At E h nodes op loc) : At E h' nodes' op loc := by
  cases loc with
  | lockHead => trivial
  | advance curr => exact hf.reached hl mem_cons_self hat
  | lockCurr pred curr =>
    exact ⟨hf.reached hl mem_cons_self hat.1, (hf.next _ mem_cons_self).trans hat.2⟩
  | unlockPred pred curr =>
    obtain ⟨hr, hnext, hop⟩ := hat
    exact ⟨hf.reached hl mem_cons_self hr, (hf.next _ mem_cons_self).trans hnext, hop⟩
  | test pred curr =>
    cases op with
    | contains x =>
      exact ⟨hf.mem_end mem_cons_self hat.1, hf.past x _ mem_cons_self hat.1 hat.2⟩
    | add x | remove x =>
      exact ⟨hf.reached hl mem_cons_self hat.1, (hf.next _ mem_cons_self).trans hat.2⟩
  | release pred curr =>
    obtain ⟨hr, hnext, hc⟩ := hat
    exact ⟨hf.reached hl mem_cons_self hr, (hf.next _ mem_cons_self).trans hnext,
      hf.reached hl (by simp [held]) hc⟩
  | create pred curr => exact ⟨hf.gap hl mem_cons_self hat.1, hat.2⟩
  | setNext pred curr node1 =>
    obtain ⟨hg, hop, hn, hx⟩ := hat
    exact ⟨hf.gap hl mem_cons_self hg, hop, hf.own _ rfl hn, by rw [hf.data _ hn.1, hx]⟩
  | link pred curr node1 =>
    obtain ⟨hg, hop, hn, hx, hnext⟩ := hat
    exact ⟨hf.gap hl mem_cons_self hg, hop, hf.own _ rfl hn, by rw [hf.data _ hn.1, hx],
      (hf.ownNext _ rfl).trans hnext⟩
  | readNext pred curr =>
    exact ⟨hf.found hl mem_cons_self (by simp [held]) hat.1, hat.2⟩
  | unlink pred curr succ =>
    obtain ⟨hg, hop, hnext⟩ := hat
    exact ⟨hf.found hl mem_cons_self (by simp [held]) hg, hop,
      (hf.next _ (by simp [held])).trans hnext⟩
  | unlockCurr pred curr | delete pred curr => exact ⟨hf.mem mem_cons_self hat.1, hf.own _ rfl hat.2⟩
  | unlockBoth pred curr r =>
    obtain ⟨hp, hc, hne⟩ := hat
    exact ⟨hf.mem mem_cons_self hp, hf.mem_end (by simp [held]) hc, hne⟩
  | unlockLast node r =>
    rcases mem_append.mp hat with hmem | hmem
    · exact mem_append_left _ (hf.mem mem_cons_self hmem)
    · exact mem_append_right _ hmem
  | ret r => trivial

end Frame

end SmcPim.FineList
