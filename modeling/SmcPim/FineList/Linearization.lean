import SmcPim.FineList.Steps

/-! # The list with a lock in each node is a set -/

namespace SmcPim.FineList

open List Function Option Atomic.Matches

variable {α κ τ : Type} [LinearOrder κ] {E : Ends α}
  {h h' : Heap α κ τ} {s s' : State α κ τ} {nodes nodes' : List α} {op : SetOp κ} {loc loc' : Loc α}
  {t u : τ} {p c n d : α} {x : κ} {r : Bool}

def Loc.status (op : SetOp κ) : Loc α → Status (SetOp κ) Bool
  | .unlockCurr _ _ | .delete _ _ => .answered true
  | .unlockBoth _ _ r | .unlockLast _ r | .ret r => .answered r
  | _ => .pending op

def Thread.status : Thread α κ → Status (SetOp κ) Bool
  | .idle => .idle
  | .busy op loc => loc.status op

def abs (s : State α κ τ) (nodes : List α) : Atomic τ (Finset κ) (SetOp κ) Bool where
  state := keys s.heap nodes
  status t := (s.thread t).status

variable [DecidableEq τ]

lemma abs_update (nodes : List α) (th : Thread α κ) :
    abs ⟨h', update s.thread t th⟩ nodes' =
      ⟨keys h' nodes', update (abs s nodes).status t th.status⟩ := by
  unfold abs
  dsimp only
  congr 1
  funext u
  by_cases hu : u = t
  · subst hu
    rw [update_self, update_self]
  · rw [update_of_ne hu, update_of_ne hu]

lemma matches_none (ht : s.thread t = .busy op loc) (hkeys : keys h' nodes' = keys s.heap nodes)
    (hstatus : loc'.status op = loc.status op) :
    Atomic.Matches (setObject κ) (abs s nodes) (.step t n)
      (abs ⟨h', update s.thread t (.busy op loc')⟩ nodes') := by
  apply Atomic.Matches.none
  rw [abs_update nodes, hkeys]
  have hsame : (Thread.busy op loc').status = (s.thread t).status := by
    rw [ht]
    exact hstatus
  rw [hsame]
  exact congrArg _ (update_eq_self t (abs s nodes).status)

lemma matches_take (ht : s.thread t = .busy op loc) (hpending : loc.status op = .pending op)
    (hkeys : keys h' nodes' = op.after (keys s.heap nodes))
    (hstatus : loc'.status op = .answered (op.answer (keys s.heap nodes))) :
    Atomic.Matches (setObject κ) (abs s nodes) (.step t n)
      (abs ⟨h', update s.thread t (.busy op loc')⟩ nodes') := by
  have hstart : (abs s nodes).status t = .pending op := by
    change (s.thread t).status = _
    rw [ht]
    exact hpending
  apply take hstart
  rw [abs_update nodes, hkeys, show (Thread.busy op loc').status = _ from hstatus]
  rfl

def Simulated (E : Ends α) (s : State α κ τ) (nodes : List α) (l : Label τ (SetOp κ) Bool α)
    (s' : State α κ τ) : Prop :=
  ∃ nodes', Inv E s' nodes' ∧ Atomic.Matches (setObject κ) (abs s nodes) l (abs s' nodes')

variable [DecidableEq α]

lemma Inv.branch (hinv : Inv E s nodes) (ht : s.thread t = .busy op (.test p c)) :
    Simulated E s nodes (.step t n) ⟨s.heap, update s.thread t (.busy op (branch E s.heap p c op))⟩ := by
  have hat := hinv.knows t _ _ ht
  have hl := hinv.linked
  obtain ⟨hc, hpast⟩ : c ∈ nodes ++ [E.tail] ∧ Past E s.heap nodes op.key c := by
    cases op with
    | contains x => exact hat
    | add x | remove x => exact hat.2 ▸ ⟨hl.next_mem hat.1.1, hl.past hat.1⟩
  have hwhole : c ∈ E.head :: nodes ++ [E.tail] := mem_cons_of_mem _ hc
  have hboth (hr : p ∈ E.head :: nodes) (hnext : s.heap.next p = c) :
      p ∈ E.head :: nodes ∧ c ∈ nodes ++ [E.tail] ∧ p ≠ c := ⟨hr, hc, hnext ▸ (hl.next_ne hr).symm⟩
  rcases compare_spec hc hpast with ⟨hend, hnot⟩ | ⟨⟨htail, hlt, hmem⟩, heq | ⟨hne, hr⟩⟩
  · rw [branch_end hend]
    cases op with
    | contains x =>
      exact ⟨nodes, hinv.stay ht hwhole rfl rfl,
        matches_take ht rfl rfl (congrArg _ (decide_eq_false hnot).symm)⟩
    | add x =>
      exact ⟨nodes, hinv.stay ht ⟨⟨hat.1, hat.2, hend⟩, rfl⟩ rfl rfl, matches_none ht rfl rfl⟩
    | remove x =>
      exact ⟨nodes, hinv.stay ht (hboth hat.1.1 hat.2) rfl rfl,
        matches_take ht rfl (Finset.erase_eq_of_notMem hnot).symm (congrArg _ (decide_eq_false hnot).symm)⟩
  · have hin := mem_keys hmem heq
    rw [branch_found htail heq]
    cases op with
    | contains x =>
      exact ⟨nodes, hinv.stay ht hwhole rfl rfl,
        matches_take ht rfl rfl (congrArg _ (decide_eq_true hin).symm)⟩
    | add x =>
      exact ⟨nodes, hinv.stay ht (hboth hat.1.1 hat.2) rfl rfl,
        matches_take ht rfl (Finset.insert_eq_of_mem hin).symm
          (congrArg _ (decide_eq_false (not_not.mpr hin)).symm)⟩
    | remove x =>
      exact ⟨nodes, hinv.stay ht ⟨⟨hat.1.1, hat.2, hmem, heq⟩, rfl⟩ rfl rfl, matches_none ht rfl rfl⟩
  · rw [branch_past htail hlt hne]
    cases op with
    | contains x => exact ⟨nodes, hinv.stay ht hr rfl rfl, matches_none ht rfl rfl⟩
    | add x | remove x =>
      exact ⟨nodes, hinv.stay ht ⟨hat.1, hat.2, hr⟩ rfl rfl, matches_none ht rfl rfl⟩

/-! ## Any step -/

lemma step_eq_some (hs : step E s (.step t n) = some s') :
    ∃ op loc h', s.thread t = .busy op loc ∧ (instr E op loc).bind (exec s.heap t n) = some h' ∧
      s' = ⟨h', update s.thread t (.busy op (goto E s.heap op n loc))⟩ := by
  dsimp only [step] at hs
  cases ht : s.thread t with
  | idle =>
    rw [ht] at hs
    cases hs
  | busy op loc =>
    rw [ht] at hs
    obtain ⟨i, hi, hs⟩ := bind_eq_some_iff.mp hs
    obtain ⟨h', hexec, hs⟩ := bind_eq_some_iff.mp hs
    exact ⟨op, loc, h', rfl, bind_eq_some_iff.mpr ⟨i, hi, hexec⟩, (some.inj hs).symm⟩

omit [LinearOrder κ] [DecidableEq τ] in
lemma exec_lock (he : exec h t n (.lock p) = some h') :
    h.lock p = none ∧ h' = { h with lock := update h.lock p (some t) } := by
  dsimp only [exec] at he
  split at he
  · exact ⟨by assumption, (some.inj he).symm⟩
  · cases he

omit [LinearOrder κ] [DecidableEq τ] in
lemma exec_new (he : exec h t n (.new x) = some h') :
    n ∉ h.live ∧ h' = { data := update h.data n x, next := h.next
                        lock := update h.lock n none, live := insert n h.live } := by
  dsimp only [exec] at he
  split at he
  · cases he
  · exact ⟨by assumption, (some.inj he).symm⟩

omit [DecidableEq α] in
lemma mem_other (hne : p ≠ c) (q : α) :
    (q ∈ [c] ↔ q ≠ p ∧ q ∈ [p, c]) ∧ (q ∈ [p] ↔ q ≠ c ∧ q ∈ [p, c]) := by
  simp only [mem_cons, not_mem_nil, or_false]
  constructor
  · constructor
    · rintro rfl
      exact ⟨hne.symm, .inr rfl⟩
    · tauto
  · constructor
    · rintro rfl
      exact ⟨hne, .inl rfl⟩
    · tauto

lemma Inv.run (hinv : Inv E s nodes) (hs : step E s (.step t n) = some s') :
    Simulated E s nodes (.step t n) s' := by
  obtain ⟨op, loc, h', ht, hexec, rfl⟩ := step_eq_some hs
  have hat := hinv.knows t op loc ht
  have hl := hinv.linked
  cases loc with
  | lockHead =>
    obtain ⟨hfree, rfl⟩ := exec_lock (n := n) hexec
    exact ⟨nodes, hinv.acquire ht hfree ⟨mem_cons_self, .inl rfl⟩ (by simp [held, goto]) rfl,
      matches_none ht rfl rfl⟩
  | advance curr =>
    obtain rfl := some.inj hexec
    exact ⟨nodes, hinv.stay ht ⟨hat, rfl⟩ rfl rfl, matches_none ht rfl rfl⟩
  | lockCurr pred curr =>
    obtain ⟨hfree, rfl⟩ := exec_lock (n := n) hexec
    refine ⟨nodes, hinv.acquire ht hfree ?_ ?_ ?_, matches_none ht rfl ?_⟩
    · cases op with
      | contains x => exact ⟨hat.1, hat.2, rfl⟩
      | add x | remove x => exact hat
    · cases op <;> simp [held, goto, or_comm]
    · cases op <;> rfl
    · cases op <;> rfl
  | unlockPred pred curr =>
    obtain rfl := some.inj hexec
    obtain ⟨hr, rfl, hop⟩ := hat
    have hne := (hl.next_ne hr.1).symm
    cases op with
    | contains x =>
      exact ⟨nodes, hinv.giveUp ht mem_cons_self ⟨hl.next_mem hr.1, hl.past hr⟩
        (fun q => (mem_other hne q).1) rfl, matches_none ht rfl rfl⟩
    | add x | remove x => cases hop
  | test pred curr =>
    obtain rfl := some.inj hexec
    exact hinv.branch ht
  | release pred curr =>
    obtain rfl := some.inj hexec
    obtain ⟨hr, rfl, hc⟩ := hat
    have hne := (hl.next_ne hr.1).symm
    exact ⟨nodes, hinv.giveUp ht mem_cons_self hc (fun q => (mem_other hne q).1) rfl,
      matches_none ht rfl rfl⟩
  | create pred curr =>
    obtain ⟨hn, rfl⟩ := exec_new (t := t) hexec
    refine ⟨nodes, hinv.new ht hn, matches_none ht ?_ rfl⟩
    unfold keys
    refine congrArg _ (map_congr_left fun y hy => update_of_ne ?_ ..)
    rintro rfl
    exact hn (hl.mem_live (mem_append_left _ hy))
  | setNext pred curr node1 =>
    obtain rfl := some.inj hexec
    exact ⟨nodes, hinv.setNext ht, matches_none ht rfl rfl⟩
  | link pred curr node1 =>
    obtain rfl := some.inj hexec
    obtain ⟨nodes', hinv', hkeys, hnot⟩ := hinv.link ht
    obtain ⟨-, hop, -⟩ := hat
    refine ⟨nodes', hinv', matches_take ht rfl ?_ ?_⟩
    · rw [hop]
      exact hkeys
    · rw [hop]
      exact congrArg _ (decide_eq_true hnot).symm
  | readNext pred curr =>
    obtain rfl := some.inj hexec
    exact ⟨nodes, hinv.stay ht ⟨hat.1, hat.2, rfl⟩ rfl rfl, matches_none ht rfl rfl⟩
  | unlink pred curr succ =>
    obtain rfl := some.inj hexec
    obtain ⟨nodes', hinv', hkeys, hin⟩ := hinv.unlink ht
    obtain ⟨-, hop, -⟩ := hat
    refine ⟨nodes', hinv', matches_take ht rfl ?_ ?_⟩
    · rw [hop]
      exact hkeys
    · rw [hop]
      exact congrArg _ (decide_eq_true hin).symm
  | unlockCurr pred curr =>
    obtain rfl := some.inj hexec
    have hne : pred ≠ curr := by
      rintro rfl
      exact hat.2.2 (mem_append_left _ hat.1)
    exact ⟨nodes, hinv.giveUp ht (by simp [held]) hat (fun q => (mem_other hne q).2) rfl,
      matches_none ht rfl rfl⟩
  | delete pred curr =>
    obtain rfl := some.inj hexec
    exact ⟨nodes, hinv.delete ht, matches_none ht rfl rfl⟩
  | unlockBoth pred curr r =>
    obtain rfl := some.inj hexec
    obtain ⟨-, hc, hne⟩ := hat
    exact ⟨nodes, hinv.giveUp ht mem_cons_self (mem_cons_of_mem _ hc)
      (fun q => (mem_other hne q).1) rfl, matches_none ht rfl rfl⟩
  | unlockLast node r =>
    obtain rfl := some.inj hexec
    exact ⟨nodes, hinv.giveUp ht mem_cons_self trivial (by simp [held, goto]) rfl,
      matches_none ht rfl rfl⟩
  | ret r => cases hexec

omit [DecidableEq α] in
lemma Inv.idle (hinv : Inv E s nodes) {th : Thread α κ} (hheld : (s.thread t).held = [])
    (hown : (s.thread t).owned = none) (hheld' : th.held = []) (hown' : th.owned = none)
    (hknows : ∀ op loc, th = .busy op loc → At E s.heap nodes op loc) :
    Inv E ⟨s.heap, update s.thread t th⟩ nodes := by
  have hsame : ∀ u, (update s.thread t th u).held = (s.thread u).held ∧
      (update s.thread t th u).owned = (s.thread u).owned := by
    intro u
    by_cases hu : u = t
    · subst hu
      rw [update_self, hheld, hown]
      exact ⟨hheld', hown'⟩
    · rw [update_of_ne hu]
      exact ⟨rfl, rfl⟩
  refine ⟨hinv.linked, ?_, ?_, ?_⟩
  · intro u q
    dsimp only
    rw [(hsame u).1]
    exact hinv.locks u q
  · intro u op loc hthread
    dsimp only at hthread
    by_cases hu : u = t
    · subst hu
      rw [update_self] at hthread
      exact hknows op loc hthread
    · rw [update_of_ne hu] at hthread
      exact hinv.knows u op loc hthread
  · intro u v q hne
    dsimp only
    rw [(hsame u).2, (hsame v).2]
    exact hinv.apart u v q hne

lemma Inv.step (hinv : Inv E s nodes) {l : Label τ (SetOp κ) Bool α} (hs : step E s l = some s') :
    Simulated E s nodes l s' := by
  cases l with
  | call t op =>
    dsimp only [FineList.step] at hs
    cases ht : s.thread t with
    | busy op' loc =>
      rw [ht] at hs
      cases hs
    | idle =>
      rw [ht] at hs
      obtain rfl := some.inj hs
      refine ⟨nodes, hinv.idle (by rw [ht]; rfl) (by rw [ht]; rfl) rfl rfl ?_, ?_⟩
      · rintro op' loc heq
        obtain ⟨-, rfl⟩ := Thread.busy.inj heq
        trivial
      · refine call (show (s.thread t).status = .idle by rw [ht]; rfl) ?_
        exact abs_update nodes (.busy op .lockHead)
  | ret t r =>
    dsimp only [FineList.step] at hs
    split at hs
    · rename_i op r' ht
      split at hs
      · rename_i heq
        subst heq
        obtain rfl := some.inj hs
        refine ⟨nodes, hinv.idle (by rw [ht]; rfl) (by rw [ht]; rfl) rfl rfl (by simp), ?_⟩
        refine ret (show (s.thread t).status = .answered r by rw [ht]; rfl) ?_
        exact abs_update nodes .idle
      · cases hs
    · cases hs
  | step t n => exact hinv.run hs

/-! ## Any run -/

omit [DecidableEq τ] in
lemma init_inv (E : Ends α) (data : α → κ) (next : α → α) :
    Inv E (init E data next : State α κ τ) [] where
  linked :=
    { list := .cons (Chain.nil_iff.mpr (update_self ..))
      sorted := List.Pairwise.nil
      head := not_mem_nil
      tail := not_mem_nil
      live := by simp [init] }
  locks := by simp [init, Thread.held]
  knows := by simp [init]
  apart := by simp [init, Thread.owned]

def uses (E : Ends α) (op : SetOp κ) (loc : Loc α) : List α :=
  (awaited E loc).toList ++ held op loc ++ (owned loc).toList

omit [DecidableEq τ] [DecidableEq α] in
lemma Inv.uses_live (hinv : Inv E s nodes) (ht : s.thread t = .busy op loc)
    (hp : p ∈ uses E op loc) : p ∈ s.heap.live := by
  have hat := hinv.knows t op loc ht
  rcases mem_append.mp hp with hp | hp
  · rcases mem_append.mp hp with hp | hp
    · -- A thread that waits for a node holds the one before it.
      rw [mem_toList] at hp
      cases loc <;> simp only [awaited, some.injEq, reduceCtorEq] at hp
      · rw [← hp]
        exact hinv.linked.live _ (by simp)
      · rw [← hp, ← hat.2]
        exact hinv.linked.mem_live (hinv.linked.next_mem hat.1.1)
    · exact hinv.held_live (u := t) (by rw [ht]; exact hp)
  · exact (hat.own (mem_toList.mp hp)).1

omit [LinearOrder κ] [DecidableEq α] in
lemma instr_uses {i : Instr α κ} (hi : instr E op loc = some i) (hp : i.node = some p) :
    p ∈ uses E op loc := by
  cases loc <;> simp only [instr, some.injEq, reduceCtorEq] at hi <;> subst hi <;>
    simp only [Instr.node, some.injEq, reduceCtorEq] at hp <;> subst hp
  case test => cases op <;> simp [uses, held]
  all_goals simp [uses, held, awaited, owned]

/-- The list is sorted, no deleted node is accessed, and the history is one of a set. -/
theorem list_is_linearizable (E : Ends α) (data : α → κ) (next : α → α)
    (ls : List (Label τ (SetOp κ) Bool α)) (s : State α κ τ)
    (hrun : Runs.Steps (Runs.Next (step E)) (init E data next) ls s) :
    ∃ nodes, Chain s.heap.next E.head (E.head :: nodes) E.tail ∧ Ascending s.heap.data nodes ∧
      (∀ t p, s.heap.lock p = some t → p ∈ s.heap.live) ∧
      (∀ t op loc, s.thread t = .busy op loc →
        (∀ p ∈ uses E op loc, p ∈ s.heap.live) ∧
        ∀ i p, instr E op loc = some i → i.node = some p → p ∈ uses E op loc) ∧
      ∃ a : Atomic τ (Finset κ) (SetOp κ) Bool, Atomic.Explains (setObject κ) ∅ ls a ∧
        a.state = keys s.heap nodes := by
  have hsim := Atomic.explains_of_matches (O := setObject κ)
    (R := fun s a => ∃ nodes, Inv E s nodes ∧ a = abs s nodes) ?_ hrun (x := ∅)
    ⟨[], init_inv E data next, rfl⟩
  · obtain ⟨a, hexplains, nodes, hinv, rfl⟩ := hsim
    refine ⟨nodes, hinv.linked.list, hinv.linked.sorted, ?_, ?_, abs s nodes, hexplains, rfl⟩
    · exact fun t p hp => hinv.held_live ((hinv.locks t p).mp hp)
    · exact fun t op loc ht => ⟨fun p hp => hinv.uses_live ht hp, fun i p => instr_uses⟩
  · rintro s l s' a ⟨nodes, hinv, rfl⟩ hs
    obtain ⟨nodes', hinv', hmatch⟩ := hinv.step hs
    exact ⟨_, hmatch, nodes', hinv', rfl⟩

def zeroOne : Ends Nat := ⟨0, 1, by decide⟩

def addFive : List (Label Nat (SetOp Nat) Bool Nat) :=
  .call 0 (.add 5) :: List.replicate 9 (.step 0 2) ++ [.ret 0 true]

theorem list_is_linearizable_addFive :
    ∃ s nodes, Runs.Steps (Runs.Next (step zeroOne)) (init zeroOne (fun _ => 0) id) addFive s ∧
      Chain s.heap.next zeroOne.head (zeroOne.head :: nodes) zeroOne.tail := by
  obtain ⟨s, hs⟩ : ∃ s, Runs.exec (step zeroOne) (init zeroOne (fun _ => 0) id) addFive = some s :=
    ⟨_, rfl⟩
  have hrun := (Runs.steps_iff_exec _ _ _ _).mpr hs
  obtain ⟨nodes, hlist, -⟩ := list_is_linearizable zeroOne (fun _ => 0) id addFive s hrun
  exact ⟨s, nodes, hrun, hlist⟩

end SmcPim.FineList
