import SmcPim.FlatCombining.Model
import SmcPim.Lib.Chain

/-! # Slots, requests and the combiner -/

namespace SmcPim.FlatCombining

open List

variable {τ Ω κ σ : Type}

/-! ## Where a thread is -/

namespace Pc

/-- The slot is marked as linked and not yet in the list. -/
def enqueuing : Pc τ Ω κ → Bool
  | enqReadStamp _ | enqStamp _ _ | enqTail _ | enqNext _ _ | enqCas _ _ => true
  | _ => false

def unlinked : Pc τ Ω κ → Bool
  | checkValid _ | enqFlag _ => true
  | _ => false

def site : Pc τ Ω κ → Option Site
  | checkLinked site | checkValid site | enqFlag site | enqReadStamp site | enqStamp site _
  | enqTail site | enqNext site _ | enqCas site _ => some site
  | _ => none

def critical (pc : Pc τ Ω κ) : Bool :=
  match pc with
  | pass _ | unlock => true
  | pc => match pc.site with
    | some .locked => true
    | _ => false

def combining : Pc τ Ω κ → Option (Pass τ Ω κ)
  | pass p => some p
  | _ => none

end Pc

namespace Pass

/-- The slot that was taken out and is still marked as linked. -/
def clearing : Pass τ Ω κ → Option τ
  | cutFlag _ c => some c
  | _ => none

/-- The slot whose request was executed and is still marked as valid. -/
def executed : Pass τ Ω κ → Option τ
  | writeTrue _ c _ | stampSlot _ c | clearValid _ c => some c
  | _ => none

end Pass

def busy (s : State τ Ω κ σ) (holder : Option τ) : Option (Pass τ Ω κ) :=
  holder.bind fun t => (s.pc t).combining

def clearing (s : State τ Ω κ σ) (holder : Option τ) : Option τ := (busy s holder).bind Pass.clearing

def executed (s : State τ Ω κ σ) (holder : Option τ) : Option τ := (busy s holder).bind Pass.executed

def nextOf (s : State τ Ω κ σ) (o : Option τ) : Option τ := o.bind fun t => (s.slot t).next

/-- A slot marked as linked is in the list, is being put there, or was just taken out. -/
structure LinkOk (x : Slot τ Ω κ) (mem out : Prop) (pc : Pc τ Ω κ) : Prop where
  linked : x.isSlotLinked = true ↔ mem ∨ out ∨ pc.enqueuing = true
  cut : out → ¬ mem
  enqueuing : pc.enqueuing = true → ¬ mem ∧ ¬ out
  unlinked : pc.unlinked = true → x.isSlotLinked = false
  cas : ∀ site tl, pc = .enqCas site tl → x.next = tl

def Posted (x : Slot τ Ω κ) (executed : Prop) (status : Status (Ω × κ) Bool) : Prop :=
  (x.isRequestValid = false → status = .answered x.returnVal) ∧
  (x.isRequestValid = true → ¬ executed → status = .pending (x.op, x.reqAns))

def Request (x : Slot τ Ω κ) (executed : Prop) (status : Status (Ω × κ) Bool) : Pc τ Ω κ → Prop
  | .idle => x.isRequestValid = false ∧ status = .idle
  | .writeOp op v => x.isRequestValid = false ∧ status = .pending (op, v)
  | .writeReq op v => x.isRequestValid = false ∧ status = .pending (op, v) ∧ x.op = op
  | .setValid op v =>
    x.isRequestValid = false ∧ status = .pending (op, v) ∧ x.op = op ∧ x.reqAns = v
  | .unlock | .readRet => x.isRequestValid = false ∧ status = .answered x.returnVal
  | .ret r => x.isRequestValid = false ∧ status = .answered r
  | .checkLinked _ | .checkValid _ | .enqFlag _ | .enqReadStamp _ | .enqStamp _ _ | .enqTail _
  | .enqNext _ _ | .enqCas _ _ | .lockRead _ | .lockCas | .waitValid | .waitLock | .lastValid
  | .pass _ => Posted x executed status

/-! ## The combiner -/

section
variable (combined : Bool) (s : State τ Ω κ σ) (slots : List τ) (a : Atomic τ σ (Ω × κ) Bool) (t : τ)

def Valid (c : τ) : Prop := (s.slot c).isRequestValid = true

structure Collected (l ys : List τ) : Prop where
  nodup : l.Nodup
  valid : ∀ c ∈ l, Valid s c
  own : Valid s t → t ∈ l ∨ t ∈ ys

structure Walking (w : Walk τ) (xs ys : List τ) : Prop where
  split : slots = xs ++ ys
  requests : ∀ c ∈ w.requests, c ∈ xs
  collected : Collected s t w.requests ys
  single : combined = false → w.requests = []

def Behind (w : Walk τ) (xs : List τ) : Prop := ∃ zs p, xs = zs ++ [p] ∧ w.prev = some p

def RestOk (c : τ) : Rest τ → Prop
  | .walk w => Valid s c ∧ ∃ xs ys, Walking combined s slots t w xs (c :: ys)
  | .list _ rest => Collected s t (c :: rest) []

def PassAt : Pass τ Ω κ → Prop
  | .readStamp | .writeStamp _ | .getStamp | .getTail _ => Valid s t → t ∈ slots
  | .visit w => ∃ xs ys, Walking combined s slots t w xs ys ∧ ys.head? = w.curr ∧
      (w.curr = w.prev ∨ Behind w xs)
  | .readOp w c => RestOk combined s slots t c (.walk w)
  | .readReq w c op => RestOk combined s slots t c (.walk w) ∧ op = (s.slot c).op
  | .writeFalse w c op v =>
    RestOk combined s slots t c (.walk w) ∧ op = (s.slot c).op ∧ v = (s.slot c).reqAns
  | .stale w c => ∃ xs ys, Walking combined s slots t w xs (c :: ys) ∧ (Valid s t → t ≠ c) ∧
      (w.curr = w.prev ∨ Behind w xs)
  | .cutRead w c => ∃ xs ys, Walking combined s slots t w xs (c :: ys) ∧ (Valid s t → t ≠ c) ∧
      Behind w xs
  | .cutWrite w c d => (∃ xs ys, Walking combined s slots t w xs (c :: ys) ∧ (Valid s t → t ≠ c) ∧
      Behind w xs) ∧ (s.slot c).next = d
  | .cutFlag w _ | .cutAdvance w => ∃ xs ys, Walking combined s slots t w xs ys ∧ Behind w xs
  | .advance w c => ∃ xs ys, Walking combined s slots t w (xs ++ [c]) ys
  | .sort w => Collected s t w.requests []
  | .next _ rest => Collected s t rest []
  | .loadReq _ rest c => Collected s t (c :: rest) [] ∧ (s.slot c).returnVal = false
  | .loadOp _ rest c v =>
    Collected s t (c :: rest) [] ∧ (s.slot c).returnVal = false ∧ v = (s.slot c).reqAns
  | .execute k c op v => RestOk combined s slots t c k ∧ op = (s.slot c).op ∧ v = (s.slot c).reqAns ∧
      (s.slot c).returnVal = false
  | .writeTrue k c r =>
    RestOk combined s slots t c k ∧ a.status c = .answered r ∧ (s.slot c).returnVal = false
  | .stampSlot k c | .clearValid k c =>
    RestOk combined s slots t c k ∧ a.status c = .answered (s.slot c).returnVal

end

structure Inv (combined : Bool) (s : State τ Ω κ σ) (slots : List τ) (holder : Option τ)
    (a : Atomic τ σ (Ω × κ) Bool) : Prop where
  chain : Chain (nextOf s) s.tail (slots.map some) none
  nodup : slots.Nodup
  object : a.state = s.object
  lock : s.lock = holder.isSome
  critical : ∀ t, (s.pc t).critical = true ↔ holder = some t
  link : ∀ t, LinkOk (s.slot t) (t ∈ slots) (clearing s holder = some t) (s.pc t)
  request : ∀ t, Request (s.slot t) (executed s holder = some t) (a.status t) (s.pc t)
  pass : ∀ t p, s.pc t = .pass p → PassAt combined s slots a t p

/-! ## Steps of other threads -/

structure Frame (s s' : State τ Ω κ σ) (slots slots' : List τ) (a a' : Atomic τ σ (Ω × κ) Bool)
    (t : τ) : Prop where
  own : s'.slot t = s.slot t
  valid : ∀ c, Valid s c → Valid s' c
  request : ∀ c, Valid s c → (s'.slot c).op = (s.slot c).op ∧
    (s'.slot c).reqAns = (s.slot c).reqAns ∧ (s'.slot c).returnVal = (s.slot c).returnVal ∧
    a'.status c = a.status c
  next : ∀ c ∈ slots, (s'.slot c).next = (s.slot c).next
  slots : ∃ us, slots' = us ++ slots

namespace Frame

variable {combined : Bool} {s s' : State τ Ω κ σ} {slots slots' l xs ys : List τ}
  {a a' : Atomic τ σ (Ω × κ) Bool} {t c : τ} {w : Walk τ} {k : Rest τ} {p : Pass τ Ω κ}

section
variable (hf : Frame s s' slots slots' a a' t)
include hf

lemma valid_own : Valid s' t ↔ Valid s t := by
  unfold Valid
  rw [hf.own]

lemma collected (h : Collected s t l ys) : Collected s' t l ys :=
  ⟨h.nodup, fun c hc => hf.valid c (h.valid c hc), fun hv => h.own (hf.valid_own.mp hv)⟩

lemma walking (h : Walking combined s slots t w xs ys) :
    ∃ us, Walking combined s' slots' t w (us ++ xs) ys := by
  obtain ⟨us, hus⟩ := hf.slots
  refine ⟨us, by rw [hus, h.split, append_assoc], ?_, hf.collected h.collected, h.single⟩
  exact fun c hc => mem_append_right _ (h.requests c hc)

lemma restOk (h : RestOk combined s slots t c k) : RestOk combined s' slots' t c k := by
  cases k with
  | walk w =>
    obtain ⟨hv, xs, ys, hw⟩ := h
    obtain ⟨us, hw'⟩ := hf.walking hw
    exact ⟨hf.valid c hv, us ++ xs, ys, hw'⟩
  | list stamp rest => exact hf.collected h

end

lemma valid_of_restOk (h : RestOk combined s slots t c k) : Valid s c := by
  cases k with
  | walk w => exact h.1
  | list stamp rest => exact h.valid c mem_cons_self

lemma behind (us : List τ) (h : Behind w xs) : Behind w (us ++ xs) := by
  obtain ⟨zs, p, rfl, hp⟩ := h
  exact ⟨us ++ zs, p, by rw [append_assoc], hp⟩

lemma passAt (hf : Frame s s' slots slots' a a' t) (h : PassAt combined s slots a t p) :
    PassAt combined s' slots' a' t p := by
  have hmem : (Valid s t → t ∈ slots) → Valid s' t → t ∈ slots' := by
    intro hown hv
    obtain ⟨us, rfl⟩ := hf.slots
    exact mem_append_right _ (hown (hf.valid_own.mp hv))
  cases p with
  | readStamp | writeStamp v | getStamp | getTail stamp => exact hmem h
  | visit w =>
    obtain ⟨xs, ys, hw, hcurr, hprev⟩ := h
    obtain ⟨us, hw'⟩ := hf.walking hw
    exact ⟨us ++ xs, ys, hw', hcurr, hprev.imp_right (behind us)⟩
  | readOp w c => exact hf.restOk (k := .walk w) h
  | readReq w c op =>
    exact ⟨hf.restOk h.1, by rw [(hf.request c h.1.1).1]; exact h.2⟩
  | writeFalse w c op v =>
    obtain ⟨hr, hop, hv⟩ := h
    obtain ⟨hop', hv', -⟩ := hf.request c hr.1
    exact ⟨hf.restOk hr, hop.trans hop'.symm, hv.trans hv'.symm⟩
  | stale w c =>
    obtain ⟨xs, ys, hw, hne, hprev⟩ := h
    obtain ⟨us, hw'⟩ := hf.walking hw
    exact ⟨us ++ xs, ys, hw', fun hv => hne (hf.valid_own.mp hv), hprev.imp_right (behind us)⟩
  | cutRead w c =>
    obtain ⟨xs, ys, hw, hne, hprev⟩ := h
    obtain ⟨us, hw'⟩ := hf.walking hw
    exact ⟨us ++ xs, ys, hw', fun hv => hne (hf.valid_own.mp hv), behind us hprev⟩
  | cutWrite w c d =>
    obtain ⟨⟨xs, ys, hw, hne, hprev⟩, hnext⟩ := h
    obtain ⟨us, hw'⟩ := hf.walking hw
    refine ⟨⟨us ++ xs, ys, hw', fun hv => hne (hf.valid_own.mp hv), behind us hprev⟩, ?_⟩
    rw [hf.next c (by simp [hw.split])]
    exact hnext
  | cutFlag w c | cutAdvance w =>
    obtain ⟨xs, ys, hw, hprev⟩ := h
    obtain ⟨us, hw'⟩ := hf.walking hw
    exact ⟨us ++ xs, ys, hw', behind us hprev⟩
  | advance w c =>
    obtain ⟨xs, ys, hw⟩ := h
    obtain ⟨us, hw'⟩ := hf.walking hw
    rw [← append_assoc] at hw'
    exact ⟨us ++ xs, ys, hw'⟩
  | sort w | next stamp rest => exact hf.collected h
  | loadReq stamp rest c =>
    obtain ⟨-, -, hret', -⟩ := hf.request c (h.1.valid c mem_cons_self)
    exact ⟨hf.collected h.1, hret'.trans h.2⟩
  | loadOp stamp rest c v =>
    obtain ⟨hl, hret, hv⟩ := h
    obtain ⟨-, hv', hret', -⟩ := hf.request c (hl.valid c mem_cons_self)
    exact ⟨hf.collected hl, hret'.trans hret, hv.trans hv'.symm⟩
  | execute k c op v =>
    obtain ⟨hr, hop, hv, hret⟩ := h
    obtain ⟨hop', hv', hret', -⟩ := hf.request c (valid_of_restOk hr)
    exact ⟨hf.restOk hr, hop.trans hop'.symm, hv.trans hv'.symm, hret'.trans hret⟩
  | writeTrue k c r =>
    obtain ⟨hr, hstatus, hret⟩ := h
    obtain ⟨-, -, hret', hstatus'⟩ := hf.request c (valid_of_restOk hr)
    exact ⟨hf.restOk hr, hstatus'.trans hstatus, hret'.trans hret⟩
  | stampSlot k c | clearValid k c =>
    obtain ⟨-, -, hret', hstatus'⟩ := hf.request c (valid_of_restOk h.1)
    exact ⟨hf.restOk h.1, by rw [hstatus', hret']; exact h.2⟩

end Frame

end SmcPim.FlatCombining
