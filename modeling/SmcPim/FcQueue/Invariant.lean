import SmcPim.FcQueue.Model

/-! # What holds between the steps -/

namespace SmcPim.FcQueue

variable {τ α ρ : Type}

/-- All that was appended, in order, and how many of these were removed. -/
structure Log (ρ : Type) where
  appended : List ρ
  removed : ℕ

def Log.queued (l : Log ρ) : List ρ := l.appended.drop l.removed

/-- What was appended first is removed first, and only once. -/
def fifo (ρ : Type) : Sequential (Log ρ) (Op ρ) (Ans ρ) where
  after l
    | .add r => ⟨l.appended ++ [r], l.removed⟩
    | .remove => if l.removed < l.appended.length then ⟨l.appended, l.removed + 1⟩ else l
  answer l
    | .add _ => .added
    | .remove => .removed l.appended[l.removed]?

/-! ## A slot and its thread -/

def Op.result (r : Option ρ) : Op ρ → Ans ρ
  | add _ => .added
  | remove => .removed r

@[simp] lemma Op.request_add (r : ρ) : (Op.add r).request = 1 := rfl

@[simp] lemma Op.request_remove : (Op.remove : Op ρ).request = deqValue := rfl

lemma deqValue_lt : deqValue < nullValue := by decide

lemma Op.request_ne (op : Op ρ) : op.request ≠ nullValue := by
  cases op with
  | add r => exact one_ne_zero
  | remove => exact deqValue_lt.ne

lemma Op.eq_remove {op : Op ρ} (h : op.request = deqValue) : op = .remove := by
  have hne : (1 : ℤ) ≠ deqValue := by decide
  cases op with
  | add r => exact absurd h hne
  | remove => rfl

lemma Op.result_congr {op op' : Op ρ} (h : op.request = op'.request) (r : Option ρ) :
    op.result r = op'.result r := by
  cases op with
  | add =>
    cases op' with
    | add => rfl
    | remove => exact absurd (Op.eq_remove h) nofun
  | remove => rw [Op.eq_remove h.symm]

structure Posted (x : Slot τ ρ) (executed : Prop) (status : Status (Op ρ) (Ans ρ)) (op : Op ρ) : Prop where
  values : x.reqAns = nullValue ∨ x.reqAns = op.request
  done : x.reqAns = nullValue → status = .answered (op.result x.rNode)
  waiting : x.reqAns ≠ nullValue → ¬ executed → status = .pending op
  node : x.reqAns ≠ nullValue → ∀ r, op = .add r → x.rNode = some r

def Own (x : Slot τ ρ) (mem : Prop) (tls : Bool) (executed : Prop) (status : Status (Op ρ) (Ans ρ)) :
    Pc τ α ρ → Prop
  | .idle => status = .idle ∧ (mem → x.reqAns = nullValue) ∧ (tls = true → mem)
  | .getSlot op => status = .pending op ∧ (mem → x.reqAns = nullValue) ∧ (tls = true → mem)
  | .newSlot op => status = .pending op ∧ ¬ mem
  | .clearReq op => status = .pending op ∧ ¬ mem ∧ tls = true
  | .getTail op | .setNext op _ => status = .pending op ∧ ¬ mem ∧ tls = true ∧ x.reqAns = nullValue
  | .cas op tl => status = .pending op ∧ ¬ mem ∧ tls = true ∧ x.reqAns = nullValue ∧ x.next = some tl
  | .writeNode op => status = .pending op ∧ mem ∧ x.reqAns = nullValue
  | .writeReq op => status = .pending op ∧ mem ∧ x.reqAns = nullValue ∧
      ∀ r, op = .add r → x.rNode = some r
  | .checkNext op | .lockRead op _ | .lockCas op | .waitReq op | .waitLock op | .lastReq op
  | .pass op _ => mem ∧ Posted x executed status op
  | .enqTail _ | .enqNext _ _ | .enqCas _ _ => False
  | .unlock op | .result op => mem ∧ x.reqAns = nullValue ∧ status = .answered (op.result x.rNode)
  | .ret r => mem ∧ x.reqAns = nullValue ∧ status = .answered r

def Pc.critical : Pc τ α ρ → Bool
  | pass _ _ | unlock _ => true
  | _ => false

def Pc.combining : Pc τ α ρ → Option (Pass τ α ρ)
  | pass _ p => some p
  | _ => none

namespace Pass

def executed : Pass τ α ρ → Option (Name τ)
  | enqHead n | deqDelete n _ | deqEmpty n | answer n => some n
  | _ => none

def linking : Pass τ α ρ → Bool
  | enqHead _ => true
  | _ => false

def offset : Pass τ α ρ → ℤ
  | enqRead _ | enqLink _ _ => 1
  | deqNode _ | deqTail _ => -1
  | _ => 0

end Pass

/-- The nodes behind the dummy at `_tail`. -/
structure Queue (s : State τ α ρ) (nodes : List α) (log : Log ρ) (pass : Option (Pass τ α ρ)) : Prop where
  path : Chain (fun o => o.bind s.next) (some s.tail) ((s.tail :: nodes).map some) none
  values : nodes.map s.rNode = log.queued.map some
  used : ∀ x ∈ s.tail :: nodes, x ∈ s.used
  removed : log.removed ≤ log.appended.length
  head : if pass.elim false Pass.linking then ∃ xs y, s.tail :: nodes = xs ++ [s.head, y]
    else ∃ xs, s.tail :: nodes = xs ++ [s.head]
  length : s.length = BitVec.ofInt 32 (log.queued.length + pass.elim 0 Pass.offset)

lemma Queue.congr_pass {s : State τ α ρ} {nodes : List α} {log : Log ρ}
    {pass pass' : Option (Pass τ α ρ)}
    (h : Queue s nodes log pass) (hlinking : pass'.elim false Pass.linking = pass.elim false Pass.linking)
    (hoffset : pass'.elim 0 Pass.offset = pass.elim 0 Pass.offset) : Queue s nodes log pass' where
  path := h.path
  values := h.values
  used := h.used
  removed := h.removed
  head := by
    rw [hlinking]
    exact h.head
  length := by
    rw [hoffset]
    exact h.length

/-! ## The combiner -/

def nameOf : List τ → Name τ
  | [] => .first
  | c :: _ => .own c

section
variable (s : State τ α ρ) (slots : List τ) (nodes : List α) (a : Atomic τ (Log ρ) (Op ρ) (Ans ρ)) (t : τ)

def Left (ys : List τ) : Prop :=
  (∃ xs, slots = xs ++ ys) ∧ ((s.slot (.own t)).reqAns ≠ nullValue → t ∈ ys)

structure Serving (n : Name τ) (c : τ) (op : Op ρ) : Prop where
  name : n = .own c
  left : ∃ ys, Left s slots t (c :: ys)
  request : (s.slot (.own c)).reqAns = op.request

def Waiting (n : Name τ) (op : Op ρ) : Prop := ∃ c, Serving s slots t n c op ∧ a.status c = .pending op

def Answered (n : Name τ) : Prop :=
  ∃ c op, Serving s slots t n c op ∧ a.status c = .answered (op.result (s.slot (.own c)).rNode)

def PassAt : Pass τ α ρ → Prop
  | .getTail => True
  | .visit n => ∃ ys, Left s slots t ys ∧ n = nameOf ys
  | .readReq n => ∃ c ys, Left s slots t (c :: ys) ∧ n = .own c
  | .enqLength n => ∃ r, Waiting s slots a t n (.add r) ∧ (s.slot n).rNode = some r
  | .enqRead n => ∃ r, Waiting s slots a t n (.add r) ∧ (s.slot n).rNode = some r
  | .enqLink n v => ∃ r, Waiting s slots a t n (.add r) ∧ v = some r
  | .enqHead n => Answered s slots a t n
  | .deqTest n => Waiting s slots a t n .remove
  | .deqLength n | .deqNode n => Waiting s slots a t n .remove ∧ nodes ≠ []
  | .deqTail n => Waiting s slots a t n .remove ∧ ∃ y ys, nodes = y :: ys ∧ (s.slot n).rNode = s.rNode y
  | .deqDelete n currNode => Answered s slots a t n ∧ currNode ∈ s.used ∧ currNode ∉ s.tail :: nodes
  | .deqEmpty n => ∃ c, Serving s slots t n c .remove ∧ a.status c = .answered (.removed none)
  | .answer n => Answered s slots a t n
  | .advance n => ∃ c xs ys, n = .own c ∧ slots = xs ++ c :: ys ∧
      ((s.slot (.own t)).reqAns ≠ nullValue → t ∈ ys)

end

def busy (s : State τ α ρ) (holder : Option τ) : Option (Pass τ α ρ) :=
  holder.bind fun t => (s.pc t).combining

def executed (s : State τ α ρ) (holder : Option τ) : Option (Name τ) := (busy s holder).bind Pass.executed

structure Inv (s : State τ α ρ) (slots : List τ) (holder : Option τ) (nodes : List α)
    (a : Atomic τ (Log ρ) (Op ρ) (Ans ρ)) : Prop where
  chain : Chain (fun n => (s.slot n).next.getD .first) s.tailSlot (slots.map .own) .first
  linked : ∀ t ∈ slots, (s.slot (.own t)).next ≠ none
  ends : (s.slot .first).next = none
  tls : ∀ t ∈ slots, s.tls t = true
  lock : s.lock = holder.isSome
  critical : ∀ t, (s.pc t).critical = true ↔ holder = some t
  own : ∀ t, Own (s.slot (.own t)) (t ∈ slots) (s.tls t) (executed s holder = some (.own t)) (a.status t)
    (s.pc t)
  pass : ∀ t op p, s.pc t = .pass op p → PassAt s slots nodes a t p
  queue : Queue s nodes a.state (busy s holder)

/-! ## Steps of other threads -/

structure Frame (s s' : State τ α ρ) (slots slots' : List τ) (a a' : Atomic τ (Log ρ) (Op ρ) (Ans ρ))
    (t : τ) : Prop where
  slot : ∀ n, n ≠ .own t → s'.slot n = s.slot n
  pc : ∀ u, u ≠ t → s'.pc u = s.pc u
  tls : ∀ u, u ≠ t → s'.tls u = s.tls u
  status : ∀ u, u ≠ t → a'.status u = a.status u
  mine : t ∈ slots → (s.slot (.own t)).reqAns ≠ nullValue →
    s'.slot (.own t) = s.slot (.own t) ∧ a'.status t = a.status t
  slots : ∃ us, slots' = us ++ slots ∧ ∀ u ∈ us, u = t
  tail : s'.tail = s.tail
  head : s'.head = s.head
  next : s'.next = s.next
  rNode : s'.rNode = s.rNode
  used : s'.used = s.used
  length : s'.length = s.length
  log : a'.state = a.state

namespace Frame

variable {s s' : State τ α ρ} {slots slots' : List τ} {nodes : List α}
  {a a' : Atomic τ (Log ρ) (Op ρ) (Ans ρ)} {t u c : τ} {n : Name τ} {op : Op ρ} {p : Pass τ α ρ} {ys : List τ}

section
variable (hf : Frame s s' slots slots' a a' t)
include hf

lemma left (hu : u ≠ t) (h : Left s slots u ys) : Left s' slots' u ys := by
  obtain ⟨⟨xs, hxs⟩, hown⟩ := h
  obtain ⟨us, hus, -⟩ := hf.slots
  refine ⟨⟨us ++ xs, by rw [hus, hxs, List.append_assoc]⟩, ?_⟩
  rw [hf.slot _ (by simpa using hu)]
  exact hown

lemma served (h : Serving s slots u n c op) :
    s'.slot (.own c) = s.slot (.own c) ∧ a'.status c = a.status c := by
  by_cases hc : c = t
  · subst hc
    obtain ⟨ys, ⟨xs, hxs⟩, -⟩ := h.left
    refine hf.mine (by simp [hxs]) ?_
    rw [h.request]
    exact op.request_ne
  · exact ⟨hf.slot _ (by simpa using hc), hf.status c hc⟩

lemma serving (hu : u ≠ t) (h : Serving s slots u n c op) : Serving s' slots' u n c op := by
  obtain ⟨ys, hys⟩ := h.left
  refine ⟨h.name, ⟨ys, hf.left hu hys⟩, ?_⟩
  rw [(hf.served h).1]
  exact h.request

lemma waiting (hu : u ≠ t) (h : Waiting s slots a u n op) :
    Waiting s' slots' a' u n op ∧ s'.slot n = s.slot n := by
  obtain ⟨c, hc, hstatus⟩ := h
  obtain ⟨hslot, hst⟩ := hf.served hc
  exact ⟨⟨c, hf.serving hu hc, hst.trans hstatus⟩, by rw [hc.name]; exact hslot⟩

lemma answered (hu : u ≠ t) (h : Answered s slots a u n) : Answered s' slots' a' u n := by
  obtain ⟨c, op, hc, hstatus⟩ := h
  obtain ⟨hslot, hst⟩ := hf.served hc
  exact ⟨c, op, hf.serving hu hc, by rw [hst, hslot]; exact hstatus⟩

lemma passAt (hu : u ≠ t) (h : PassAt s slots nodes a u p) : PassAt s' slots' nodes a' u p := by
  cases p with
  | getTail => trivial
  | visit n =>
    obtain ⟨ys, hys, hn⟩ := h
    exact ⟨ys, hf.left hu hys, hn⟩
  | readReq n =>
    obtain ⟨c, ys, hys, hn⟩ := h
    exact ⟨c, ys, hf.left hu hys, hn⟩
  | enqLength n | enqRead n =>
    obtain ⟨r, hw, hr⟩ := h
    obtain ⟨hw', hslot⟩ := hf.waiting hu hw
    exact ⟨r, hw', by rw [hslot]; exact hr⟩
  | enqLink n v =>
    obtain ⟨r, hw, hr⟩ := h
    exact ⟨r, (hf.waiting hu hw).1, hr⟩
  | enqHead n => exact hf.answered hu h
  | deqTest n => exact (hf.waiting hu h).1
  | deqLength n | deqNode n => exact ⟨(hf.waiting hu h.1).1, h.2⟩
  | deqTail n =>
    obtain ⟨hw, y, ys, hys, hr⟩ := h
    obtain ⟨hw', hslot⟩ := hf.waiting hu hw
    exact ⟨hw', y, ys, hys, by rw [hslot, hf.rNode]; exact hr⟩
  | deqDelete n currNode =>
    obtain ⟨ha, hused, hnot⟩ := h
    exact ⟨hf.answered hu ha, by rw [hf.used]; exact hused, by rw [hf.tail]; exact hnot⟩
  | deqEmpty n =>
    obtain ⟨c, hc, hstatus⟩ := h
    exact ⟨c, hf.serving hu hc, (hf.served hc).2.trans hstatus⟩
  | answer n => exact hf.answered hu h
  | advance n =>
    obtain ⟨c, xs, ys, hn, hslots, hown⟩ := h
    obtain ⟨us, hus, -⟩ := hf.slots
    refine ⟨c, us ++ xs, ys, hn, by rw [hus, hslots, List.append_assoc], ?_⟩
    rw [hf.slot _ (by simpa using hu)]
    exact hown

lemma queue {pass : Option (Pass τ α ρ)}
    (h : Queue s nodes a.state pass) : Queue s' nodes a'.state pass := by
  obtain ⟨hpath, hvalues, hused, hremoved, hhead, hlength⟩ := h
  rw [← hf.tail, ← hf.next] at hpath
  rw [← hf.log] at hvalues hremoved hlength
  rw [← hf.rNode] at hvalues
  rw [← hf.tail, ← hf.used] at hused
  rw [← hf.tail, ← hf.head] at hhead
  rw [← hf.length] at hlength
  exact ⟨hpath, hvalues, hused, hremoved, hhead, hlength⟩

end

end Frame

end SmcPim.FcQueue
