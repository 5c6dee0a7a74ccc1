import SmcPim.FineList.Linearization
import SmcPim.Lib.Mutex
import SmcPim.Lib.While

/-! # The mutexes of the nodes -/

namespace SmcPim.FineList

open List Function Option

open Mutex (Use WellUsed status)

section
variable {α κ τ : Type} [DecidableEq α] [LinearOrder κ] [DecidableEq τ] (E : Ends α)

/-- The constructor initialises the mutex of `node1` again when it has made `node2`. -/
def constructorUses : List (α × Use τ) := [(E.head, .init), (E.head, .init)]

/-- `remove` destroys the mutex of its node before the `delete`. -/
def useOf (t : τ) (op : SetOp κ) : Loc α → Option (α × Use τ)
  | .setNext _ _ node1 => some (node1, .init)
  | .delete _ curr => some (curr, .destroy)
  | loc =>
    match instr E op loc with
    | some (.lock p) => some (p, .lock t)
    | some (.unlock p) => some (p, .unlock t)
    | _ => none

def stepUse (s : State α κ τ) : Label τ (SetOp κ) Bool α → Option (α × Use τ)
  | .step t _ =>
    match s.thread t with
    | .busy op loc => useOf E t op loc
    | .idle => none
  | _ => none

def stepUses (x : State α κ τ × List (α × Use τ)) (l : Label τ (SetOp κ) Bool α) :
    Option (State α κ τ × List (α × Use τ)) :=
  (step E x.1 l).map fun s => (s, x.2 ++ (stepUse E x.1 l).toList)

def release (t : τ) (p : α) : List (α × Use τ) := [(p, .unlock t), (p, .destroy)]

def notTail (x : α × List (α × Use τ)) : Bool := decide (x.1 ≠ E.tail)

/-- The body of the loop of the destructor. -/
def destroyHead (h : Heap α κ τ) (t : τ) (x : α × List (α × Use τ)) : α × List (α × Use τ) :=
  (h.next x.1, x.2 ++ release t x.1)

def destructor (h : Heap α κ τ) (t : τ) (fuel : ℕ) (l : List (α × Use τ)) : Option (List (α × Use τ)) :=
  (whileLoop (notTail E) (destroyHead h t) fuel (E.head, l)).map fun x => x.2 ++ release t x.1

end

/-! ## What a mutex has come to -/

section
variable {α κ τ : Type} {s s' : State α κ τ} {h : Heap α κ τ} {t : τ} {p : α} {m : Mutex.Status τ} {x : Thread α κ}

def Thread.raw : Thread α κ → Option α
  | .busy _ (.setNext _ _ node1) => some node1
  | _ => none

def Raw (s : State α κ τ) (p : α) : Prop := ∃ t, (s.thread t).raw = some p

def Fits (s : State α κ τ) (p : α) : Mutex.Status τ → Prop
  | .absent => p ∉ s.heap.live ∨ Raw s p
  | .free => p ∈ s.heap.live ∧ ¬Raw s p ∧ s.heap.lock p = none
  | .held t => p ∈ s.heap.live ∧ ¬Raw s p ∧ s.heap.lock p = some t

structure Alike (s s' : State α κ τ) (p : α) : Prop where
  live : p ∈ s'.heap.live ↔ p ∈ s.heap.live
  raw : Raw s' p ↔ Raw s p
  lock : s'.heap.lock p = s.heap.lock p

lemma Fits.alike (hm : Fits s p m) (ha : Alike s s' p) : Fits s' p m := by
  cases m with
  | absent => exact hm.imp (fun h => ha.live.not.mpr h) ha.raw.mpr
  | free | held t => exact ⟨ha.live.mpr hm.1, ha.raw.not.mpr hm.2.1, ha.lock.trans hm.2.2⟩

lemma Fits.not_absent (hlive : p ∈ s.heap.live) (hraw : ¬Raw s p) : ¬Fits s p .absent :=
  not_or.mpr ⟨not_not.mpr hlive, hraw⟩

lemma raw_update [DecidableEq τ] (hx : x.raw = some p ↔ (s.thread t).raw = some p) :
    Raw ⟨h, update s.thread t x⟩ p ↔ Raw s p := by
  refine exists_congr fun u => ?_
  by_cases hu : u = t
  · subst hu
    simpa using hx
  · simp [update_of_ne hu]

lemma raw_owned (hx : x.raw = some p) : x.owned = some p := by
  cases x with
  | idle => exact absurd hx (by simp [Thread.raw])
  | busy op loc => cases loc <;> simp_all [Thread.raw, Thread.owned, owned]

end

variable {α κ τ : Type} [LinearOrder κ] {E : Ends α} {h : Heap α κ τ} {s s' : State α κ τ} {nodes : List α}
  {op : SetOp κ} {loc loc' : Loc α} {t u : τ} {p q c n : α} {l : List (α × Use τ)} {m : Mutex.Status τ} {r : Bool}

lemma Inv.not_raw (hinv : Inv E s nodes) (hp : p ∈ E.head :: nodes ++ [E.tail]) : ¬Raw s p := by
  rintro ⟨u, hu⟩
  exact (hinv.own (raw_owned hu)).2 hp

lemma Inv.not_raw_of_own (hinv : Inv E s nodes) (hp : (s.thread t).owned = some p)
    (hraw : (s.thread t).raw = none) : ¬Raw s p := by
  rintro ⟨u, hu⟩
  have hne : u ≠ t := by
    rintro rfl
    rw [hraw] at hu
    cases hu
  exact hinv.apart u t p hne (raw_owned hu) hp

lemma Inv.not_raw_of_held (hinv : Inv E s nodes) (hp : p ∈ (s.thread t).held)
    (hraw : (s.thread t).raw = none) : ¬Raw s p := by
  rcases hinv.mem_held hp with hmem | hown
  · exact hinv.not_raw hmem
  · exact hinv.not_raw_of_own hown hraw

lemma Inv.own_free (hinv : Inv E s nodes) (hp : (s.thread t).owned = some p)
    (hheld : p ∉ (s.thread t).held) : s.heap.lock p = none := by
  cases hlock : s.heap.lock p with
  | none => rfl
  | some u =>
    have hu := (hinv.locks u p).mp hlock
    by_cases heq : u = t
    · exact absurd (heq ▸ hu) hheld
    · exact absurd hu (hinv.not_held_of_own hp heq)

/-! ## The uses up to a state -/

variable [DecidableEq α] [DecidableEq τ]

structure Used (E : Ends α) (s : State α κ τ) (l : List (α × Use τ)) : Prop where
  head : status E.head l = none
  tail : (E.tail, Use.init) ∉ l
  data : ∀ p, p ≠ E.head → p ≠ E.tail → ∃ m, status p l = some m ∧ Fits s p m

namespace Used

omit [LinearOrder κ] in
lemma stay (hused : Used E s l) (ha : ∀ p, Alike s s' p) : Used E s' l := by
  refine ⟨hused.head, hused.tail, fun p hhead htail => ?_⟩
  obtain ⟨m, hm, hfits⟩ := hused.data p hhead htail
  exact ⟨m, hm, hfits.alike (ha p)⟩

omit [LinearOrder κ] in
lemma use {v : Use τ} (hused : Used E s l) (hinit : v = .init → q ≠ E.tail)
    (ha : ∀ p ≠ q, Alike s s' p)
    (hq : ∀ m, Fits s q m → ∃ m', m.after v = some m' ∧ Fits s' q m') : Used E s' (l ++ [(q, v)]) := by
  refine ⟨Mutex.status_append_none hused.head, ?_, fun p hhead htail => ?_⟩
  · rw [mem_append, mem_singleton]
    rintro (hmem | heq)
    · exact hused.tail hmem
    · obtain ⟨rfl, rfl⟩ := Prod.mk.inj heq
      exact hinit rfl rfl
  · obtain ⟨m, hm, hfits⟩ := hused.data p hhead htail
    by_cases hpq : p = q
    · subst hpq
      obtain ⟨m', hafter, hfits'⟩ := hq m hfits
      refine ⟨m', ?_, hfits'⟩
      rw [Mutex.status_self, hm]
      exact hafter
    · refine ⟨m, ?_, hfits.alike (ha p hpq)⟩
      rw [Mutex.status_of_ne (Ne.symm hpq), hm]

variable {x : Thread α κ}

section
variable (hused : Used E s l)
include hused

lemma lock (hinv : Inv E s nodes) (hraw : (s.thread t).raw = none)
    (hq : q ∈ E.head :: nodes ++ [E.tail]) (hfree : s.heap.lock q = none) (hx : x.raw = none) :
    Used E ⟨{ s.heap with lock := update s.heap.lock q (some t) }, update s.thread t x⟩
      (l ++ [(q, .lock t)]) := by
  refine hused.use nofun (fun p hp => ⟨Iff.rfl, raw_update (by rw [hx, hraw]), update_of_ne hp ..⟩) fun m hm => ?_
  cases m with
  | absent => exact absurd hm (Fits.not_absent (hinv.linked.live q hq) (hinv.not_raw hq))
  | free => exact ⟨.held t, rfl, hm.1, (raw_update (by rw [hx, hraw])).not.mpr hm.2.1, update_self ..⟩
  | held u => exact absurd (hfree.symm.trans hm.2.2) (by simp)

lemma unlock (hinv : Inv E s nodes) (hraw : (s.thread t).raw = none)
    (hq : q ∈ (s.thread t).held) (hx : x.raw = none) :
    Used E ⟨{ s.heap with lock := update s.heap.lock q none }, update s.thread t x⟩
      (l ++ [(q, .unlock t)]) := by
  have hlock : s.heap.lock q = some t := (hinv.locks t q).mpr hq
  refine hused.use nofun (fun p hp => ⟨Iff.rfl, raw_update (by rw [hx, hraw]), update_of_ne hp ..⟩) fun m hm => ?_
  cases m with
  | absent => exact absurd hm (Fits.not_absent (hinv.held_live hq) (hinv.not_raw_of_held hq hraw))
  | free => exact absurd (hlock.symm.trans hm.2.2) (by simp)
  | held u =>
    obtain rfl : t = u := some.inj (hlock.symm.trans hm.2.2)
    exact ⟨.free, if_pos rfl, hm.1, (raw_update (by rw [hx, hraw])).not.mpr hm.2.1, update_self ..⟩

omit [LinearOrder κ] in
lemma new {data : α → κ} (hraw : (s.thread t).raw = none) (hn : n ∉ s.heap.live)
    (hx : x.raw = some n) :
    Used E ⟨{ s.heap with data := data, lock := update s.heap.lock n none, live := insert n s.heap.live },
      update s.thread t x⟩ l := by
  refine ⟨hused.head, hused.tail, fun p hhead htail => ?_⟩
  obtain ⟨m, hm, hfits⟩ := hused.data p hhead htail
  refine ⟨m, hm, ?_⟩
  by_cases hpn : p = n
  · subst hpn
    cases m with
    | absent => exact .inr ⟨t, by simpa using hx⟩
    | free | held u => exact absurd hfits.1 hn
  · refine hfits.alike ⟨?_, raw_update ?_, update_of_ne hpn ..⟩
    · simp [hpn]
    · simp [hx, hraw, Ne.symm hpn]

lemma init (hinv : Inv E s nodes) (hraw : (s.thread t).raw = some n)
    (hheld : n ∉ (s.thread t).held) (hx : x.raw = none) {next : α → α} :
    Used E ⟨{ s.heap with next := next }, update s.thread t x⟩ (l ++ [(n, .init)]) := by
  have hown := raw_owned hraw
  have hpriv := hinv.own hown
  refine hused.use (fun _ heq => hpriv.2 (by simp [heq])) (fun p hp => ⟨Iff.rfl, raw_update ?_, rfl⟩) fun m hm => ?_
  · simp [hx, hraw, Ne.symm hp]
  cases m with
  | absent =>
    refine ⟨.free, rfl, hpriv.1, ?_, hinv.own_free hown hheld⟩
    rintro ⟨u, hu⟩
    dsimp only at hu
    by_cases heq : u = t
    · subst heq
      rw [update_self, hx] at hu
      cases hu
    · rw [update_of_ne heq] at hu
      exact hinv.apart u t n heq (raw_owned hu) hown
  | free | held u => exact absurd ⟨t, hraw⟩ hm.2.1

lemma destroy (hinv : Inv E s nodes) (hraw : (s.thread t).raw = none)
    (hown : (s.thread t).owned = some q) (hheld : q ∉ (s.thread t).held) (hx : x.raw = none) :
    Used E ⟨{ s.heap with live := s.heap.live.erase q }, update s.thread t x⟩ (l ++ [(q, .destroy)]) := by
  have hfree := hinv.own_free hown hheld
  refine hused.use nofun (fun p hp => ⟨?_, raw_update (by rw [hx, hraw]), rfl⟩) fun m hm => ?_
  · simp [hp]
  cases m with
  | absent => exact absurd hm (Fits.not_absent (hinv.own hown).1 (hinv.not_raw_of_own hown hraw))
  | free => exact ⟨.absent, rfl, .inl (Finset.notMem_erase q _)⟩
  | held u => exact absurd (hfree.symm.trans hm.2.2) (by simp)

omit [LinearOrder κ] in
lemma other {next : α → α} (hraw : (s.thread t).raw = none) (hx : x.raw = none) :
    Used E ⟨{ s.heap with next := next }, update s.thread t x⟩ l :=
  hused.stay fun _ => ⟨Iff.rfl, raw_update (by rw [hx, hraw]), rfl⟩

end

omit [DecidableEq τ] in
lemma raw_branch : (Thread.busy op (branch E h p q op)).raw = none := by
  cases op <;> simp only [branch] <;> split_ifs <;> rfl

lemma run (hused : Used E s l) (hinv : Inv E s nodes) (hs : step E s (.step t n) = some s') :
    Used E s' (l ++ (stepUse E s (.step t n)).toList) := by
  obtain ⟨op, loc, h', ht, hexec, rfl⟩ := step_eq_some hs
  have hraw : (s.thread t).raw = (Thread.busy op loc).raw := by rw [ht]
  have huse : stepUse E s (.step t n) = useOf E t op loc := by simp only [stepUse, ht]
  have hat := hinv.knows t op loc ht
  have hpre : ∀ {q}, q ∈ E.head :: nodes → q ∈ E.head :: nodes ++ [E.tail] := fun hq => mem_append_left _ hq
  rw [huse]
  cases loc with
  | lockHead =>
    obtain ⟨hfree, rfl⟩ := exec_lock (n := n) hexec
    exact hused.lock hinv hraw (hpre mem_cons_self) hfree rfl
  | lockCurr pred curr =>
    obtain ⟨hfree, rfl⟩ := exec_lock (n := n) hexec
    have hcurr : curr ∈ nodes ++ [E.tail] := hat.2 ▸ hinv.linked.next_mem hat.1.1
    refine hused.lock hinv hraw (mem_cons_of_mem _ hcurr) hfree ?_
    cases op <;> rfl
  | unlockPred pred curr | release pred curr | unlockCurr pred curr | unlockBoth pred curr r | unlockLast node r =>
    obtain rfl := some.inj hexec
    exact hused.unlock hinv hraw (by rw [ht]; simp [Thread.held, held]) rfl
  | create pred curr =>
    obtain ⟨hn, rfl⟩ := exec_new (t := t) hexec
    change Used E _ (l ++ [])
    rw [append_nil]
    exact hused.new hraw hn rfl
  | setNext pred curr node1 =>
    obtain rfl := some.inj hexec
    obtain ⟨⟨hr, rfl, -⟩, -, hpriv, -⟩ := hat
    refine hused.init hinv hraw ?_ rfl
    rw [ht]
    show node1 ∉ [pred, s.heap.next pred]
    rw [mem_pair]
    rintro (rfl | rfl)
    · exact hpriv.2 (hpre hr.1)
    · exact hpriv.2 (mem_cons_of_mem _ (hinv.linked.next_mem hr.1))
  | delete pred curr =>
    obtain rfl := some.inj hexec
    obtain ⟨hpred, hpriv⟩ := hat
    refine hused.destroy hinv hraw (by rw [ht]; rfl) ?_ rfl
    rw [ht]
    show curr ∉ [pred]
    rw [mem_singleton]
    rintro rfl
    exact hpriv.2 (hpre hpred)
  | test pred curr =>
    obtain rfl := some.inj hexec
    change Used E _ (l ++ [])
    rw [append_nil]
    exact hused.other hraw raw_branch
  | advance curr | readNext pred curr | link pred curr node1 | unlink pred curr succ =>
    obtain rfl := some.inj hexec
    change Used E _ (l ++ [])
    rw [append_nil]
    exact hused.other hraw rfl
  | ret r => cases hexec

lemma step (hused : Used E s l) (hinv : Inv E s nodes) {a : Label τ (SetOp κ) Bool α}
    (hs : FineList.step E s a = some s') : Used E s' (l ++ (stepUse E s a).toList) := by
  cases a with
  | step t n => exact hused.run hinv hs
  | call t op =>
    change Used E s' (l ++ [])
    rw [append_nil]
    dsimp only [FineList.step] at hs
    cases ht : s.thread t with
    | busy op' loc =>
      rw [ht] at hs
      cases hs
    | idle =>
      rw [ht] at hs
      obtain rfl := some.inj hs
      exact hused.other (by rw [ht]; rfl) rfl
  | ret t r =>
    change Used E s' (l ++ [])
    rw [append_nil]
    dsimp only [FineList.step] at hs
    split at hs
    · rename_i op r' ht
      split at hs
      · obtain rfl := some.inj hs
        exact hused.other (by rw [ht]; rfl) rfl
      · cases hs
    · cases hs

end Used

omit [LinearOrder κ] in
lemma init_used (E : Ends α) (data : α → κ) (next : α → α) :
    Used E (init E data next : State α κ τ) (constructorUses E) := by
  refine ⟨?_, ?_, fun p hhead htail => ⟨.absent, ?_, .inl ?_⟩⟩
  · simp [constructorUses, status, Mutex.uses, Mutex.Status.after]
  · simp [constructorUses, E.ne.symm]
  · simp [constructorUses, status, Mutex.uses, hhead.symm]
  · simp [init, hhead, htail]

lemma used_of_run {data : α → κ} {next : α → α} {ls : List (Label τ (SetOp κ) Bool α)}
    (hrun : Runs.Steps (Runs.Next (stepUses E)) (init E data next, constructorUses E) ls (s, l)) :
    ∃ nodes, Inv E s nodes ∧ Used E s l := by
  refine hrun.inv (fun x => ∃ nodes, Inv E x.1 nodes ∧ Used E x.1 x.2) ?_ ⟨[], init_inv E data next, init_used E data next⟩
  rintro ⟨s, l⟩ a y ⟨nodes, hinv, hused⟩ hstep
  obtain ⟨s', hs, rfl⟩ := map_eq_some_iff.mp hstep
  obtain ⟨nodes', hinv', -⟩ := hinv.step hs
  exact ⟨nodes', hinv', hused.step hinv hs⟩

variable {xs : List α}

/-! ## The destructor -/

omit [LinearOrder κ] [DecidableEq τ] in
lemma destructor_loop {a : α} (hchain : Chain h.next a xs E.tail) (htail : E.tail ∉ xs)
    (l : List (α × Use τ)) :
    whileLoop (notTail E) (destroyHead h t) xs.length (a, l) = some (E.tail, l ++ xs.flatMap (release t)) := by
  induction xs generalizing a l with
  | nil =>
    obtain rfl := Chain.nil_iff.mp hchain
    rw [flatMap_nil, append_nil]
    exact whileLoop_stop (decide_eq_false (not_not.mpr rfl))
  | cons y ys ih =>
    obtain ⟨rfl, hchain⟩ := Chain.cons_iff.mp hchain
    rw [mem_cons, not_or] at htail
    have htest : notTail E (a, l) = true := decide_eq_true (Ne.symm htail.1)
    rw [length_cons, whileLoop_turn htest, destroyHead, ih hchain htail.2, flatMap_cons, append_assoc]

omit [DecidableEq τ] in
lemma destructor_eq (hl : Linked E h nodes) (t : τ) (l : List (α × Use τ)) :
    destructor E h t (E.head :: nodes).length l = some (l ++ (E.head :: nodes ++ [E.tail]).flatMap (release t)) := by
  have htail : E.tail ∉ E.head :: nodes := by
    rw [mem_cons, not_or]
    exact ⟨E.ne.symm, hl.tail⟩
  rw [destructor, destructor_loop hl.list htail, flatMap_append, ← append_assoc]
  rfl

omit [DecidableEq τ] in
lemma uses_release (hp : p ∉ xs) : Mutex.uses p (xs.flatMap (release t)) = [] := by
  induction xs with
  | nil => rfl
  | cons y ys ih =>
    rw [mem_cons, not_or] at hp
    rw [flatMap_cons, Mutex.uses_append, ih hp.2]
    simp [Mutex.uses, release, Ne.symm hp.1]

lemma status_release (hp : p ∈ xs) (hfree : status p l = some .free) :
    status p (l ++ xs.flatMap (release t)) = none := by
  obtain ⟨ys, zs, rfl, hys⟩ := eq_append_cons_of_mem hp
  have hunlock : status p (l ++ ys.flatMap (release t) ++ [(p, .unlock t)]) = none := by
    rw [Mutex.status_self, Mutex.status_append_of_unused (uses_release hys), hfree]
    rfl
  have heq : l ++ (ys ++ p :: zs).flatMap (release t) =
      l ++ ys.flatMap (release t) ++ [(p, .unlock t)] ++ ((p, .destroy) :: zs.flatMap (release t)) := by
    simp [release]
  rw [heq]
  exact Mutex.status_append_none hunlock

omit [LinearOrder κ] in
lemma Used.status_tail (hused : Used E s l) (htail : E.tail ∈ xs) :
    status E.tail (l ++ xs.flatMap (release t)) = none := by
  refine Mutex.status_of_not_init (u := .unlock t) ?_ ?_
  · rw [mem_append, not_or]
    exact ⟨hused.tail, by simp [release]⟩
  · refine mem_append_right _ (mem_flatMap.mpr ⟨E.tail, htail, ?_⟩)
    simp [release]

lemma Used.status_data (hused : Used E s l) (hinv : Inv E s nodes) (hidle : ∀ t, s.thread t = .idle)
    (hhead : p ≠ E.head) (htail : p ≠ E.tail) :
    status p l = some (if p ∈ s.heap.live then .free else .absent) := by
  obtain ⟨m, hm, hfits⟩ := hused.data p hhead htail
  rw [hm]
  cases m with
  | absent =>
    have hraw : ¬Raw s p := by
      rintro ⟨u, hu⟩
      rw [hidle u] at hu
      cases hu
    rw [if_neg (hfits.resolve_right hraw)]
  | free => rw [if_pos hfits.1]
  | held u =>
    have hu := (hinv.locks u p).mp hfits.2.2
    rw [hidle u] at hu
    exact absurd hu not_mem_nil

lemma Used.wellUsed_iff (hused : Used E s l) (hinv : Inv E s nodes)
    (hidle : ∀ t, s.thread t = .idle) :
    WellUsed p (l ++ (E.head :: nodes ++ [E.tail]).flatMap (release t)) ↔ p ∉ s.heap.live := by
  have hlive := hinv.linked.live p
  rw [WellUsed]
  by_cases hhead : p = E.head
  · subst hhead
    rw [Mutex.status_append_none hused.head]
    exact iff_of_false nofun (not_not.mpr (hlive (by simp)))
  by_cases htail : p = E.tail
  · subst htail
    rw [hused.status_tail (by simp)]
    exact iff_of_false nofun (not_not.mpr (hlive (by simp)))
  have hdata := hused.status_data hinv hidle hhead htail
  by_cases hmem : p ∈ E.head :: nodes ++ [E.tail]
  · rw [if_pos (hlive hmem)] at hdata
    rw [status_release hmem hdata]
    exact iff_of_false nofun (not_not.mpr (hlive hmem))
  · rw [Mutex.status_append_of_unused (uses_release hmem), hdata]
    split_ifs with hp
    · exact iff_of_false nofun (not_not.mpr hp)
    · exact iff_of_true rfl hp

/-- The mutexes of the nodes that the destructor finds are used wrong, and all others right. -/
theorem mutexes_misused (E : Ends α) (data : α → κ) (next : α → α)
    (ls : List (Label τ (SetOp κ) Bool α))
    (s : State α κ τ) (l : List (α × Use τ))
    (hrun : Runs.Steps (Runs.Next (stepUses E)) (init E data next, constructorUses E) ls (s, l))
    (hidle : ∀ t, s.thread t = .idle) (t : τ) :
    ∃ fuel l', destructor E s.heap t fuel l = some l' ∧ (∀ p, WellUsed p l' ↔ p ∉ s.heap.live) ∧
      ¬∀ p, WellUsed p l' := by
  obtain ⟨nodes, hinv, hused⟩ := used_of_run hrun
  have hiff : ∀ p, WellUsed p (l ++ (E.head :: nodes ++ [E.tail]).flatMap (release t)) ↔ p ∉ s.heap.live :=
    fun p => hused.wellUsed_iff hinv hidle
  refine ⟨_, _, destructor_eq hinv.linked t l, hiff, fun hall => ?_⟩
  exact (hiff E.head).mp (hall E.head) (hinv.linked.live E.head (by simp))

theorem mutexes_misused_addFive :
    ∃ s l fuel l', Runs.Steps (Runs.Next (stepUses zeroOne)) (init zeroOne (fun _ => 0) id, constructorUses zeroOne)
        addFive (s, l) ∧
      destructor zeroOne s.heap 0 fuel l = some l' ∧ ¬∀ p, WellUsed p l' := by
  obtain ⟨⟨s, l⟩, hs⟩ : ∃ x, Runs.exec (stepUses zeroOne) (init zeroOne (fun _ => 0) id, constructorUses zeroOne)
      addFive = some x := ⟨_, rfl⟩
  have hrun := (Runs.steps_iff_exec _ _ _ _).mpr hs
  have hidle : ∀ t, s.thread t = .idle := by
    obtain ⟨rfl, -⟩ := Prod.mk.inj (Option.some.inj hs)
    rintro (_ | t) <;> rfl
  obtain ⟨fuel, l', hd, -, hnot⟩ := mutexes_misused zeroOne (fun _ => 0) id addFive s l hrun hidle 0
  exact ⟨s, l, fuel, l', hrun, hd, hnot⟩

/-- In this run the mutexes of the head, of the tail and of the new node are not used right. -/
theorem addFive_misuses :
    ∃ s l l', Runs.exec (stepUses zeroOne) (init zeroOne (fun _ => 0) id, constructorUses zeroOne) addFive = some (s, l) ∧
      destructor zeroOne s.heap 0 2 l = some l' ∧ ¬WellUsed 0 l' ∧ ¬WellUsed 1 l' ∧ ¬WellUsed 2 l' :=
  ⟨_, _, _, rfl, rfl, by decide, by decide, by decide⟩

end SmcPim.FineList
