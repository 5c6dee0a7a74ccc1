import SmcPim.FlatCombining.Nodes

/-!
# The two passes over the publication list

From `testProject/test/MyFCLinkedList.h`: `flat_combining` and `flat_combining_combined`.
-/

namespace SmcPim.FlatCombining

open List Function

/-- `std::sort` by a key. Requests with the same key may come in any order. -/
structure StdSort (τ : Type) where
  sort : (τ → ℤ) → List τ → List τ
  perm : ∀ key l, (sort key l).Perm l
  sorted : ∀ key l, (sort key l).Pairwise fun a b => key a ≤ key b

structure MyFCLinkedList (α τ : Type) where
  nodes : Nodes α
  slot : τ → Slot τ Op ℤ
  tailSlot : Option τ
  timestamp : ℤ

namespace MyFCLinkedList

variable {α τ : Type} [DecidableEq α] [DecidableEq τ] (M : Malloc α) (l : MyFCLinkedList α τ)

/-! ## The functions -/

def write (c : τ) (f : Slot τ Op ℤ → Slot τ Op ℤ) : MyFCLinkedList α τ :=
  { l with slot := Function.update l.slot c (f (l.slot c)) }

def tick : MyFCLinkedList α τ := { l with timestamp := l.timestamp + 1 }

/-- The request of the slot `c`, with the search from `prev` and `curr`, and where it ends. -/
def request (fuel : Nat) (stamp : ℤ) (c : τ) (prev curr : α) :
    Option (MyFCLinkedList α τ × α × α) := do
  let op := (l.slot c).op
  let inValue := (l.slot c).reqAns
  let l := l.write c fun x => { x with returnVal := false }
  let (prev, curr) ← l.nodes.search inValue fuel prev curr
  let (nodes, curr, r) ← l.nodes.act M op inValue prev curr
  let l := { l with nodes := nodes }
  let l := if r then l.write c fun x => { x with returnVal := true } else l
  let l := l.write c fun x => { x with timeStamp := stamp }
  some (l.write c fun x => { x with isRequestValid := false }, prev, curr)

/-- A slot without a request is passed, or taken out: the list, `prev_slot` and `curr_slot`. -/
def skip (stamp : ℤ) (prev : Option τ) (c : τ) :
    Option (MyFCLinkedList α τ × Option τ × Option τ) :=
  if some c ≠ prev ∧ stampThreshold < stamp - (l.slot c).timeStamp then
    match prev with
    | none => none
    | some p =>
      let l := l.write p fun x => { x with next := (l.slot c).next }
      let l := l.write c fun x => { x with isSlotLinked := false }
      some (l, prev, (l.slot p).next)
  else some (l, some c, (l.slot c).next)

/-- The loop over the publication list, of at most `fuel` slots. -/
def walk (combined : Bool) (fuel : Nat) (stamp : ℤ) :
    Nat → Option τ → Option τ → List τ → MyFCLinkedList α τ → Option (MyFCLinkedList α τ × List τ)
  | 0, _, _, _, _ => none
  | _ + 1, _, none, requests, l => some (l, requests)
  | k + 1, prev, some c, requests, l =>
    if (l.slot c).isRequestValid then
      if combined then
        walk combined fuel stamp k (some c) (l.slot c).next (requests ++ [c]) l
      else do
        let (l, _, _) ← l.request M fuel stamp c l.nodes.head l.nodes.head
        walk combined fuel stamp k (some c) (l.slot c).next requests l
    else do
      let (l, prev, curr) ← l.skip stamp prev c
      walk combined fuel stamp k prev curr requests l

/-- The loop over the sorted requests, with one search that goes on from request to request. -/
def serve (fuel : Nat) (stamp : ℤ) :
    List τ → α → α → MyFCLinkedList α τ → Option (MyFCLinkedList α τ)
  | [], _, _, l => some l
  | c :: rest, prev, curr, l => do
    let (l, prev, curr) ← l.request M fuel stamp c prev curr
    -- After a delete the link of `prev_node` has been read once more.
    if prev ∈ l.nodes.used then serve fuel stamp rest prev curr l else none

def flatCombining (fuel : Nat) : Option (MyFCLinkedList α τ) := do
  let l := l.tick
  let (l, _) ← walk M false fuel l.timestamp fuel l.tailSlot l.tailSlot [] l
  some l

def flatCombiningCombined (sort : StdSort τ) (fuel : Nat) : Option (MyFCLinkedList α τ) := do
  let l := l.tick
  let (l, requests) ← walk M true fuel l.timestamp fuel l.tailSlot l.tailSlot [] l
  let requests := sort.sort (fun c => (l.slot c).reqAns) requests
  serve M fuel l.timestamp requests l.nodes.head l.nodes.head l

/-! ## What the requests do -/

def nextSlot (o : Option τ) : Option τ := o.bind fun c => (l.slot c).next

def requestOf (c : τ) : SetOp ℤ := (l.slot c).op.toSetOp (l.slot c).reqAns

def requests (ds : List τ) : List τ := ds.filter fun c => (l.slot c).isRequestValid

def InRange (c : τ) : Prop := intMin < (l.slot c).reqAns ∧ (l.slot c).reqAns < intMax

variable {M l} {l1 l' : MyFCLinkedList α τ} {nodes nodes1 nodes' xs ys : List α} {cs ds : List τ}
  {c : τ} {fuel : Nat} {stamp : ℤ} {prev curr : α} {r : Bool}

omit [DecidableEq α] in
lemma write_slot_self (f : Slot τ Op ℤ → Slot τ Op ℤ) : (l.write c f).slot c = f (l.slot c) :=
  update_self ..

omit [DecidableEq α] in
lemma write_slot_ne (f : Slot τ Op ℤ → Slot τ Op ℤ) {d : τ} (h : d ≠ c) :
    (l.write c f).slot d = l.slot d :=
  update_of_ne h ..

structure Kept (x y : Slot τ Op ℤ) : Prop where
  op : y.op = x.op
  reqAns : y.reqAns = x.reqAns
  valid : y.isRequestValid = x.isRequestValid
  returnVal : y.returnVal = x.returnVal

structure Effect (l l' : MyFCLinkedList α τ) (nodes nodes' : List α) (cs : List τ) :
    Prop where
  sorted : l'.nodes.Sorted nodes'
  keys : l'.nodes.keys nodes' = SetOp.final (l.nodes.keys nodes) (cs.map l.requestOf)
  answers : cs.map (fun c => (l'.slot c).returnVal) =
    SetOp.answers (l.nodes.keys nodes) (cs.map l.requestOf)
  done : ∀ c ∈ cs, (l'.slot c).isRequestValid = false
  kept : ∀ c, c ∉ cs → Kept (l.slot c) (l'.slot c)

structure Ahead (l : MyFCLinkedList α τ) (prev : Option τ) (ds : List τ) : Prop where
  list : Chain l.nextSlot ds.head? (ds.map some) none
  nodup : ds.Nodup
  prev : prev = ds.head? ∨ ∃ p, prev = some p ∧ p ∉ ds

section
omit [DecidableEq α] [DecidableEq τ]

lemma Kept.refl (x : Slot τ Op ℤ) : Kept x x := ⟨rfl, rfl, rfl, rfl⟩

lemma Kept.trans {x y z : Slot τ Op ℤ} (h : Kept x y) (h' : Kept y z) : Kept x z :=
  ⟨h'.op.trans h.op, h'.reqAns.trans h.reqAns, h'.valid.trans h.valid,
    h'.returnVal.trans h.returnVal⟩

lemma requestOf_congr (h : Kept (l.slot c) (l1.slot c)) : l1.requestOf c = l.requestOf c := by
  unfold requestOf
  rw [h.op, h.reqAns]

lemma map_requestOf (h : ∀ c ∈ cs, Kept (l.slot c) (l1.slot c)) :
    cs.map l1.requestOf = cs.map l.requestOf :=
  map_congr_left fun c hc => requestOf_congr (h c hc)

lemma inRange_congr (h : Kept (l.slot c) (l1.slot c)) (hc : l.InRange c) : l1.InRange c := by
  unfold InRange
  rwa [h.reqAns]

lemma requestOf_key (c : τ) : (l.requestOf c).key = (l.slot c).reqAns := by
  unfold requestOf
  cases (l.slot c).op <;> rfl

lemma requests_congr (h : ∀ c ∈ ds, (l'.slot c).isRequestValid = (l.slot c).isRequestValid) :
    l'.requests ds = l.requests ds :=
  filter_congr h

namespace Effect

lemma nil (h : l.nodes.Sorted nodes) : Effect l l nodes nodes [] :=
  ⟨h, rfl, rfl, by simp, fun _ _ => .refl _⟩

lemma of_kept (hnodes : l1.nodes = l.nodes) (hkept : ∀ c, Kept (l.slot c) (l1.slot c))
    (h : Effect l1 l' nodes nodes' cs) : Effect l l' nodes nodes' cs where
  sorted := h.sorted
  keys := by
    rw [h.keys, hnodes, map_requestOf fun c _ => hkept c]
  answers := by
    rw [h.answers, hnodes, map_requestOf fun c _ => hkept c]
  done := h.done
  kept := fun c hc => (hkept c).trans (h.kept c hc)

lemma answered (h : Effect l l' nodes nodes' cs) (hcs : cs.Perm (l.requests ds)) (hc : c ∈ ds) :
    (l'.slot c).isRequestValid = false := by
  by_cases hmem : c ∈ cs
  · exact h.done c hmem
  · rw [(h.kept c hmem).valid]
    by_contra hv
    exact hmem (hcs.mem_iff.mpr (mem_filter.mpr ⟨hc, by simpa using hv⟩))

lemma answer_eq (h : Effect l l' nodes nodes' cs)
    (hkeys : ((cs.map l.requestOf).map SetOp.key).Nodup) (hc : c ∈ cs) :
    (l'.slot c).returnVal = (l.requestOf c).answer (l.nodes.keys nodes) := by
  have hanswers := h.answers
  rw [SetOp.answers_eq_map hkeys, map_map] at hanswers
  exact map_inj_left.mp hanswers c hc

end Effect

namespace Ahead

variable {prev : Option τ}

lemma next_eq (h : Ahead l prev (c :: ds)) : (l.slot c).next = ds.head? := by
  have hlist := (Chain.cons_iff.mp h.list).2
  cases ds with
  | nil => exact Chain.nil_iff.mp hlist
  | cons d ds => exact (Chain.cons_iff.mp hlist).1

lemma congr (h : Ahead l prev (c :: ds)) (hnext : ∀ d ∈ ds, (l'.slot d).next = (l.slot d).next)
    {q : τ} (hq : q ∉ ds) : Ahead l' (some q) ds where
  list := by
    have hlist := (Chain.cons_iff.mp h.list).2
    rw [show l.nextSlot (some c) = ds.head? from h.next_eq] at hlist
    refine hlist.congr fun o ho => ?_
    obtain ⟨d, hd, rfl⟩ := mem_map.mp ho
    exact hnext d hd
  nodup := (nodup_cons.mp h.nodup).2
  prev := .inr ⟨q, rfl, hq⟩

end Ahead

lemma ahead_of_chain {slots : List τ} (h : Chain l.nextSlot l.tailSlot (slots.map some) none) :
    Ahead l l.tailSlot slots ∧ l.tailSlot = slots.head? := by
  have hhead : l.tailSlot = slots.head? := by
    cases slots with
    | nil => exact Chain.nil_iff.mp h
    | cons c slots => exact (Chain.cons_iff.mp h).1
  exact ⟨⟨hhead ▸ h, (h.nodup (by simp)).of_map, .inl hhead⟩, hhead⟩

end

namespace Effect

omit [DecidableEq α] in
lemma cons (hkeys : l1.nodes.keys nodes1 = (l.requestOf c).after (l.nodes.keys nodes))
    (hslot : l1.slot = update l.slot c { l.slot c with
      returnVal := (l.requestOf c).answer (l.nodes.keys nodes)
      timeStamp := stamp
      isRequestValid := false })
    (hc : c ∉ cs) (h : Effect l1 l' nodes1 nodes' cs) : Effect l l' nodes nodes' (c :: cs) := by
  have hkept : ∀ d, d ≠ c → Kept (l.slot d) (l1.slot d) := by
    intro d hd
    rw [hslot, update_of_ne hd]
    exact .refl _
  have hself := h.kept c hc
  rw [hslot, update_self] at hself
  have hmap : cs.map l1.requestOf = cs.map l.requestOf := by
    refine map_requestOf fun d hd => hkept d ?_
    rintro rfl
    exact hc hd
  refine ⟨h.sorted, ?_, ?_, ?_, ?_⟩
  · rw [h.keys, hkeys, hmap]
    rfl
  · rw [map_cons, map_cons, SetOp.answers, h.answers, hkeys, hmap, hself.returnVal]
  · intro d hd
    rcases mem_cons.mp hd with rfl | hd
    · exact hself.valid
    · exact h.done d hd
  · intro d hd
    rw [mem_cons, not_or] at hd
    exact (hkept d hd.1).trans (h.kept d hd.2)

end Effect

lemma request_eq (stamp : ℤ) (h : l.nodes.Sorted (xs ++ ys)) (hcurr : ys.head? = some curr)
    (hprev : xs = [] ∨ xs.getLast? = some prev) (hbelow : ∀ x ∈ xs, l.nodes.key x < (l.slot c).reqAns)
    (hc : l.InRange c) (hfuel : ys.length ≤ fuel) :
    ∃ l' zs p c' ws, l.request M fuel stamp c prev curr = some (l', p, c') ∧
      l'.nodes.Sorted (zs ++ p :: c' :: ws) ∧
      l'.nodes.keys (zs ++ p :: c' :: ws) = (l.requestOf c).after (l.nodes.keys (xs ++ ys)) ∧
      l'.slot = update l.slot c { l.slot c with
        returnVal := (l.requestOf c).answer (l.nodes.keys (xs ++ ys))
        timeStamp := stamp
        isRequestValid := false } ∧
      l'.timestamp = l.timestamp ∧
      (∀ x ∈ zs ++ [p], l'.nodes.key x < (l.slot c).reqAns) ∧
      (zs ++ p :: c' :: ws).length ≤ (xs ++ ys).length + 1 := by
  obtain ⟨zs, p, c', ws, hsplit, hsearch, hpart⟩ := h.search_eq hcurr hprev hbelow hc hfuel
  rw [hsplit] at h ⊢
  obtain ⟨n', c'', ws', hact, hsorted, hkeys, hbelow', hlen⟩ := h.act_eq M hc hpart (l.slot c).op
  refine ⟨{ l with nodes := n' }.write c fun x => { x with
      returnVal := (l.requestOf c).answer (l.nodes.keys (zs ++ p :: c' :: ws))
      timeStamp := stamp
      isRequestValid := false }, zs, p, c'', ws', ?_, hsorted, hkeys, rfl, rfl, hbelow', ?_⟩
  · unfold request
    change (l.nodes.search _ fuel prev curr >>= _) = _
    rw [hsearch]
    change (l.nodes.act M _ _ p c' >>= _) = _
    rw [hact]
    rw [show (l.slot c).op.toSetOp (l.slot c).reqAns = l.requestOf c from rfl]
    cases SetOp.answer (l.nodes.keys (zs ++ p :: c' :: ws)) (l.requestOf c) <;> simp [write]
  · simp
    omega

lemma serve_eq (stamp : ℤ) (prev : α) (h : l.nodes.Sorted (xs ++ ys)) (hcurr : ys.head? = some curr)
    (hprev : xs = [] ∨ xs.getLast? = some prev)
    (hbelow : ∀ c ∈ cs, ∀ x ∈ xs, l.nodes.key x < (l.slot c).reqAns) (hcs : ∀ c ∈ cs, l.InRange c)
    (hsorted : cs.Pairwise fun a b => (l.slot a).reqAns ≤ (l.slot b).reqAns) (hnodup : cs.Nodup)
    (hfuel : (xs ++ ys).length + cs.length ≤ fuel) :
    ∃ l' nodes', serve M fuel stamp cs prev curr l = some l' ∧ Effect l l' (xs ++ ys) nodes' cs := by
  induction cs generalizing l xs ys prev curr with
  | nil => exact ⟨l, xs ++ ys, rfl, .nil h⟩
  | cons c cs ih =>
    rw [forall_mem_cons] at hbelow hcs
    obtain ⟨hle, hsorted⟩ := pairwise_cons.mp hsorted
    obtain ⟨hc, hnodup⟩ := nodup_cons.mp hnodup
    rw [length_append, length_cons] at hfuel
    obtain ⟨l1, zs, p, c', ws, hreq, hs1, hkeys, hslot, -, hbelow1, hlen⟩ :=
      request_eq stamp h hcurr hprev hbelow.1 hcs.1 (show ys.length ≤ fuel by omega)
    have hsame : ∀ d ∈ cs, l1.slot d = l.slot d := by
      intro d hd
      rw [hslot, update_of_ne]
      rintro rfl
      exact hc hd
    rw [append_cons] at hs1 hkeys hlen
    have hbelow' : ∀ d ∈ cs, ∀ x ∈ zs ++ [p], l1.nodes.key x < (l1.slot d).reqAns := by
      intro d hd x hx
      rw [hsame d hd]
      exact lt_of_lt_of_le (hbelow1 x hx) (hle d hd)
    have hcs' : ∀ d ∈ cs, l1.InRange d := by
      intro d hd
      unfold InRange
      rw [hsame d hd]
      exact hcs.2 d hd
    have hsorted' : cs.Pairwise fun a b => (l1.slot a).reqAns ≤ (l1.slot b).reqAns := by
      refine hsorted.imp_of_mem fun {a b} ha hb hab => ?_
      rw [hsame a ha, hsame b hb]
      exact hab
    have hlast : (zs ++ [p]).getLast? = some p := by simp
    obtain ⟨l', nodes', hserve, heffect⟩ := ih p hs1 rfl (.inr hlast) hbelow' hcs' hsorted' hnodup
      (by simp only [length_append] at hlen ⊢; omega)
    refine ⟨l', nodes', ?_, heffect.cons hkeys hslot hc⟩
    rw [serve, hreq]
    exact (if_pos (hs1.used p (by simp))).trans hserve

/-! ## The publication list -/

namespace Ahead

variable {prev : Option τ}

omit [DecidableEq α] in
lemma skip_eq (h : Ahead l prev (c :: ds)) (stamp : ℤ) :
    ∃ l' prev', l.skip stamp prev c = some (l', prev', ds.head?) ∧ Ahead l' prev' ds ∧
      l'.nodes = l.nodes ∧ l'.timestamp = l.timestamp ∧ ∀ d, Kept (l.slot d) (l'.slot d) := by
  have hc := (nodup_cons.mp h.nodup).1
  unfold skip
  split
  · rename_i hstale
    obtain ⟨p, rfl, hp⟩ := h.prev.resolve_left fun heq => hstale.1 heq.symm
    rw [mem_cons, not_or] at hp
    generalize hl' : (l.write p fun x => { x with next := (l.slot c).next }).write c
      (fun x => { x with isSlotLinked := false }) = l'
    have hself : l'.slot c = { l.slot c with isSlotLinked := false } := by
      rw [← hl', write_slot_self, write_slot_ne _ (Ne.symm hp.1)]
    have hprev : l'.slot p = { l.slot p with next := (l.slot c).next } := by
      rw [← hl', write_slot_ne _ hp.1, write_slot_self]
    have hother : ∀ d, d ≠ c → d ≠ p → l'.slot d = l.slot d := by
      intro d hdc hdp
      rw [← hl', write_slot_ne _ hdc, write_slot_ne _ hdp]
    refine ⟨l', some p, ?_, h.congr (fun d hd => ?_) hp.2, by rw [← hl']; rfl, by rw [← hl']; rfl, ?_⟩
    · have hnext : (l'.slot p).next = ds.head? := by
        rw [hprev]
        exact h.next_eq
      rw [← hnext, ← hl']
    · rw [hother d]
      · rintro rfl
        exact hc hd
      · rintro rfl
        exact hp.2 hd
    · intro d
      by_cases hdc : d = c
      · rw [hdc, hself]
        exact ⟨rfl, rfl, rfl, rfl⟩
      · by_cases hdp : d = p
        · rw [hdp, hprev]
          exact ⟨rfl, rfl, rfl, rfl⟩
        · rw [hother d hdc hdp]
          exact .refl _
  · exact ⟨l, some c, by rw [h.next_eq], h.congr (fun _ _ => rfl) hc, rfl, rfl, fun d => .refl _⟩

end Ahead

variable {prev : Option τ} {k : Nat}

lemma walk_collect (fuel : Nat) (stamp : ℤ) (cs : List τ) (h : Ahead l prev ds) (hk : ds.length < k) :
    ∃ l', walk M true fuel stamp k prev ds.head? cs l = some (l', cs ++ l.requests ds) ∧
      l'.nodes = l.nodes ∧ l'.timestamp = l.timestamp ∧ ∀ d, Kept (l.slot d) (l'.slot d) := by
  induction ds generalizing l prev cs k with
  | nil =>
    obtain ⟨k, rfl⟩ := Nat.exists_eq_add_of_lt hk
    refine ⟨l, ?_, rfl, rfl, fun d => .refl _⟩
    simp [walk, requests]
  | cons c ds ih =>
    obtain ⟨k, rfl⟩ : ∃ m, k = m + 1 := ⟨k - 1, by omega⟩
    rw [length_cons, Nat.add_lt_add_iff_right] at hk
    rw [head?_cons, walk]
    by_cases hv : (l.slot c).isRequestValid = true
    · have hahead := h.congr (fun d _ => rfl) (nodup_cons.mp h.nodup).1
      obtain ⟨l', hwalk, hrest⟩ := ih (cs ++ [c]) hahead hk
      refine ⟨l', ?_, hrest⟩
      rw [if_pos hv, if_pos rfl, h.next_eq, hwalk]
      simp [requests, hv]
    · obtain ⟨l1, prev', hskip, hahead, hnodes, htime, hkept⟩ := h.skip_eq stamp
      obtain ⟨l', hwalk, hnodes', htime', hkept'⟩ := ih cs hahead hk
      refine ⟨l', ?_, hnodes'.trans hnodes, htime'.trans htime, fun d => (hkept d).trans (hkept' d)⟩
      rw [if_neg hv, hskip]
      refine hwalk.trans ?_
      rw [requests_congr fun d _ => (hkept d).valid]
      simp [requests, hv]

lemma walk_execute (stamp : ℤ) (cs : List τ) (h : Ahead l prev ds) (hnodes : l.nodes.Sorted nodes)
    (hds : ∀ c ∈ l.requests ds, l.InRange c) (hk : ds.length < k)
    (hfuel : nodes.length + ds.length ≤ fuel) :
    ∃ l' nodes', walk M false fuel stamp k prev ds.head? cs l = some (l', cs) ∧
      Effect l l' nodes nodes' (l.requests ds) := by
  induction ds generalizing l prev nodes k with
  | nil =>
    obtain ⟨k, rfl⟩ := Nat.exists_eq_add_of_lt hk
    refine ⟨l, nodes, ?_, .nil hnodes⟩
    simp [walk]
  | cons c ds ih =>
    obtain ⟨k, rfl⟩ : ∃ m, k = m + 1 := ⟨k - 1, by omega⟩
    have hc := (nodup_cons.mp h.nodup).1
    rw [length_cons, Nat.add_lt_add_iff_right] at hk
    rw [length_cons] at hfuel
    rw [head?_cons, walk]
    by_cases hv : (l.slot c).isRequestValid = true
    · have hcons : l.requests (c :: ds) = c :: l.requests ds := filter_cons_of_pos hv
      rw [hcons, forall_mem_cons] at hds
      obtain ⟨l1, zs, p, c', ws, hreq, hs1, hkeys, hslot, -, -, hlen⟩ :=
        request_eq stamp (show l.nodes.Sorted ([] ++ nodes) from hnodes) hnodes.head_eq (.inl rfl) (by simp) hds.1
          (show nodes.length ≤ fuel by omega)
      have hsame : ∀ d ∈ ds, l1.slot d = l.slot d := by
        intro d hd
        rw [hslot, update_of_ne]
        rintro rfl
        exact hc hd
      have hnext : (l1.slot c).next = ds.head? := by
        rw [hslot, update_self]
        exact h.next_eq
      have hrequests : l1.requests ds = l.requests ds :=
        requests_congr fun d hd => by rw [hsame d hd]
      have hds' : ∀ d ∈ l1.requests ds, l1.InRange d := by
        intro d hd
        rw [hrequests] at hd
        unfold InRange
        rw [hsame d (mem_of_mem_filter hd)]
        exact hds.2 d hd
      obtain ⟨l', nodes', hwalk, heffect⟩ := ih (h.congr (fun d hd => by rw [hsame d hd]) hc) hs1 hds' hk
        (by simp only [nil_append] at hlen; omega)
      refine ⟨l', nodes', ?_, ?_⟩
      · rw [if_pos hv, if_neg Bool.false_ne_true, hreq]
        refine Eq.trans ?_ hwalk
        rw [← hnext]
        rfl
      · rw [hcons]
        rw [hrequests] at heffect
        exact heffect.cons hkeys hslot fun hmem => hc (mem_of_mem_filter hmem)
    · obtain ⟨l1, prev', hskip, hahead, hnodes', -, hkept⟩ := h.skip_eq stamp
      have hcons : l.requests (c :: ds) = l.requests ds := filter_cons_of_neg hv
      have hrequests : l1.requests ds = l.requests ds := requests_congr fun d _ => (hkept d).valid
      rw [hcons] at hds ⊢
      have hds' : ∀ d ∈ l1.requests ds, l1.InRange d := by
        intro d hd
        exact inRange_congr (hkept d) (hds d (hrequests ▸ hd))
      obtain ⟨l', nodes', hwalk, heffect⟩ := ih hahead (hnodes' ▸ hnodes) hds' hk (by omega)
      refine ⟨l', nodes', ?_, ?_⟩
      · rw [if_neg hv, hskip]
        exact hwalk
      · rw [hrequests] at heffect
        exact heffect.of_kept hnodes' hkept

/-! ## The passes -/

section
variable {slots : List τ}

lemma flatCombining_eq (hnodes : l.nodes.Sorted nodes)
    (hslots : Chain l.nextSlot l.tailSlot (slots.map some) none)
    (hkeys : ∀ c ∈ l.requests slots, l.InRange c) (hfuel : nodes.length + slots.length < fuel) :
    ∃ l' nodes', l.flatCombining M fuel = some l' ∧ Effect l l' nodes nodes' (l.requests slots) := by
  obtain ⟨hahead, hhead⟩ := ahead_of_chain hslots
  obtain ⟨l', nodes', hwalk, heffect⟩ :=
    walk_execute (M := M) (l := l.tick) l.tick.timestamp [] { hahead with } hnodes hkeys
      (show slots.length < fuel by omega) hfuel.le
  refine ⟨l', nodes', ?_,
    Effect.of_kept (show l.tick.nodes = l.nodes from rfl) (fun c => Kept.refl (l.slot c)) heffect⟩
  rw [← hhead] at hwalk
  unfold flatCombining
  change (walk M false fuel l.tick.timestamp fuel l.tailSlot l.tailSlot [] l.tick >>= _) = _
  rw [hwalk]
  rfl

lemma flatCombiningCombined_eq (sort : StdSort τ) (hnodes : l.nodes.Sorted nodes)
    (hslots : Chain l.nextSlot l.tailSlot (slots.map some) none)
    (hkeys : ∀ c ∈ l.requests slots, l.InRange c) (hfuel : nodes.length + slots.length < fuel) :
    ∃ l' nodes', l.flatCombiningCombined M sort fuel = some l' ∧
      Effect l l' nodes nodes' (sort.sort (fun c => (l.slot c).reqAns) (l.requests slots)) := by
  obtain ⟨hahead, hhead⟩ := ahead_of_chain hslots
  obtain ⟨l1, hwalk, hnodes1, htime, hkept⟩ :=
    walk_collect (l := l.tick) (M := M) fuel l.tick.timestamp []
      { hahead with } (show slots.length < fuel by omega)
  have hsort : sort.sort (fun c => (l1.slot c).reqAns) = sort.sort fun c => (l.slot c).reqAns := by
    congr 1
    funext c
    exact (hkept c).reqAns
  generalize hcs : sort.sort (fun c => (l.slot c).reqAns) (l.requests slots) = cs
  have hperm : cs.Perm (l.requests slots) := hcs ▸ sort.perm ..
  have hsorted : cs.Pairwise fun a b => (l1.slot a).reqAns ≤ (l1.slot b).reqAns := by
    rw [← hcs, ← hsort]
    exact sort.sorted ..
  have hnodup : cs.Nodup := hperm.nodup_iff.mpr (hahead.nodup.filter _)
  have hlen : cs.length ≤ slots.length := hperm.length_eq.trans_le (length_filter_le ..)
  have hs1 : l1.nodes.Sorted ([] ++ nodes) := hnodes1 ▸ hnodes
  obtain ⟨l', nodes', hserve, heffect⟩ := serve_eq (M := M) l1.timestamp l1.nodes.head hs1
    hs1.head_eq (.inl rfl) (by simp)
    (fun c hc => inRange_congr (hkept c) (hkeys c (hperm.mem_iff.mp hc))) hsorted hnodup
    (show ([] ++ nodes).length + cs.length ≤ fuel by rw [nil_append]; omega)
  refine ⟨l', nodes', ?_, Effect.of_kept (l := l) hnodes1 hkept heffect⟩
  rw [← hhead] at hwalk
  unfold flatCombiningCombined
  change (walk M true fuel l.tick.timestamp fuel l.tailSlot l.tailSlot [] l.tick >>= _) = _
  rw [hwalk, ← hserve, ← hcs, ← hsort]
  rfl

/-- The combined pass does what its requests do to a set, one by one in the order of the sort. -/
theorem combined_pass_is_sequential (M : Malloc α) (sort : StdSort τ) (l : MyFCLinkedList α τ)
    (nodes : List α) (slots : List τ) (hnodes : l.nodes.Sorted nodes)
    (hslots : Chain l.nextSlot l.tailSlot (slots.map some) none)
    (hkeys : ∀ c ∈ l.requests slots, l.InRange c) (fuel : Nat)
    (hfuel : nodes.length + slots.length < fuel) :
    let order := sort.sort (fun c => (l.slot c).reqAns) (l.requests slots)
    ∃ l' nodes', l.flatCombiningCombined M sort fuel = some l' ∧ l'.nodes.Sorted nodes' ∧
      (∀ c ∈ slots, (l'.slot c).isRequestValid = false) ∧
      l'.nodes.keys nodes' = SetOp.final (l.nodes.keys nodes) (order.map l.requestOf) ∧
      order.map (fun c => (l'.slot c).returnVal) =
        SetOp.answers (l.nodes.keys nodes) (order.map l.requestOf) ∧
      (((l.requests slots).map fun c => (l.slot c).reqAns).Nodup →
        ∃ l'' nodes'', l.flatCombining M fuel = some l'' ∧ l''.nodes.Sorted nodes'' ∧
          nodes''.map l''.nodes.key = nodes'.map l'.nodes.key ∧
          ∀ c ∈ slots, (l''.slot c).isRequestValid = false ∧
            (l''.slot c).returnVal = (l'.slot c).returnVal) := by
  intro order
  obtain ⟨l', nodes', hrun, heffect⟩ := flatCombiningCombined_eq sort hnodes hslots hkeys hfuel
  have hperm : order.Perm (l.requests slots) := sort.perm ..
  refine ⟨l', nodes', hrun, heffect.sorted, ?_, heffect.keys, heffect.answers, fun hdistinct => ?_⟩
  · exact fun c hc => heffect.answered hperm hc
  · obtain ⟨l'', nodes'', hrun', heffect'⟩ := flatCombining_eq (M := M) hnodes hslots hkeys hfuel
    have hmap : ((l.requests slots).map l.requestOf).map SetOp.key =
        (l.requests slots).map fun c => (l.slot c).reqAns := by
      rw [List.map_map]
      exact List.map_congr_left fun c _ => requestOf_key c
    have hops : (order.map l.requestOf).Perm ((l.requests slots).map l.requestOf) := hperm.map _
    rw [← hmap] at hdistinct
    have hdistinct' := (hops.map SetOp.key).nodup_iff.mpr hdistinct
    have hsame : l''.nodes.keys nodes'' = l'.nodes.keys nodes' := by
      rw [heffect.keys, heffect'.keys, SetOp.final_perm hops hdistinct']
    refine ⟨l'', nodes'', hrun', heffect'.sorted, heffect'.sorted.map_key_eq heffect.sorted hsame, ?_⟩
    refine fun c hc => ⟨heffect'.answered (.refl _) hc, ?_⟩
    by_cases hv : c ∈ l.requests slots
    · rw [heffect'.answer_eq hdistinct hv, heffect.answer_eq hdistinct' (hperm.mem_iff.mpr hv)]
    · rw [(heffect'.kept c hv).returnVal, (heffect.kept c (mt hperm.mem_iff.mp hv)).returnVal]

end

lemma sum_succ_notMem (used : List Nat) : used.sum + 1 ∉ used := by
  intro h
  have hle := single_le_sum (fun x _ => Nat.zero_le x) _ h
  omega

def mallocAbove : Malloc Nat := ⟨fun used => used.sum + 1, sum_succ_notMem⟩

def insertionSort (τ : Type) : StdSort τ where
  sort key l := l.insertionSort fun a b => key a ≤ key b
  perm _ l := List.perm_insertionSort _ l
  sorted key l :=
    haveI : Std.Total fun a b => key a ≤ key b := ⟨fun a b => le_total (key a) (key b)⟩
    haveI : IsTrans τ fun a b => key a ≤ key b := ⟨fun _ _ _ => le_trans⟩
    List.pairwise_insertionSort _ l

def sevenList : MyFCLinkedList Nat Bool where
  nodes := ⟨0, 1, fun p => if p = 1 then intMin else if p = 2 then 7 else intMax,
    fun p => if p = 1 then 2 else if p = 2 then 3 else 0, [3, 2, 1]⟩
  slot t := if t then ⟨7, 0, some false, true, true, false, .del⟩
    else ⟨5, 0, none, true, true, false, .add⟩
  tailSlot := some true
  timestamp := 0

theorem combined_pass_is_sequential_seven :
    ∃ l' nodes', sevenList.flatCombiningCombined mallocAbove (insertionSort Bool) 6 = some l' ∧
      l'.nodes.Sorted nodes' ∧ l'.nodes.keys nodes' = {5} := by
  obtain ⟨l', nodes', hrun, hsorted, -, hkeys, -⟩ := combined_pass_is_sequential mallocAbove
    (insertionSort Bool) sevenList [1, 2, 3] [true, false]
    ⟨.cons (.cons (.cons (.nil _))), by unfold Ascending; decide, by decide, by decide, by decide⟩
    (.cons (.cons (.nil _))) (by unfold InRange; decide) 6 (by decide)
  exact ⟨l', nodes', hrun, hsorted, hkeys.trans (by decide)⟩

end MyFCLinkedList

end SmcPim.FlatCombining
