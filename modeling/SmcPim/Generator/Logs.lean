import SmcPim.Checker.Sequential
import SmcPim.FineList.Linearization
import SmcPim.Generator.Invariant

/-! # The logs of a run -/

namespace SmcPim.Generator

open Function Option FineList Prod

open FineList (Ends Heap Linked Reached)

variable {α τ : Type} {E : Ends α} {h : Heap α ℕ (Option τ)} {nodes : List α} {op : SetOp ℕ} {x : ℕ}
  {pred curr succ node1 n : α}

/-! ## The list -/

variable [DecidableEq α]

lemma branch_end (hend : curr = E.tail ∨ op.key < h.data curr) :
    branch E h pred curr op = match op with | .add _ => .create pred curr | _ => .unlock false := by
  rcases hend with htail | hlt
  · cases op <;> simp only [branch, if_pos htail]
  · cases op <;> rw [SetOp.key] at hlt <;> simp only [branch, if_pos hlt, ite_self]

lemma branch_found (htail : curr ≠ E.tail) (heq : h.data curr = op.key) :
    branch E h pred curr op =
      match op with
      | .contains _ => .unlock true
      | .add _ => .unlock false
      | .remove _ => .readNext pred curr := by
  cases op <;> rw [SetOp.key] at heq <;> simp [branch, htail, heq]

lemma branch_advance (htail : curr ≠ E.tail) (hlt : ¬op.key < h.data curr)
    (hne : h.data curr ≠ op.key) : branch E h pred curr op = .advance curr := by
  cases op <;> rw [SetOp.key] at hlt hne <;> simp [branch, htail, hlt, hne, Ne.symm hne]

lemma branch_spec (hl : Linked E h nodes) (hr : Reached E h nodes op.key pred)
    (hnext : h.next pred = curr) :
    branch E h pred curr op = .unlock (op.answer (keys h nodes)) ∧
        op.after (keys h nodes) = keys h nodes ∨
      Knows E h nodes op (branch E h pred curr op) ∧ (Pc.busy op (branch E h pred curr op)).unlogged = [] := by
  have hc : curr ∈ nodes ++ [E.tail] := hnext ▸ hl.next_mem hr.1
  rcases compare_spec hc (hnext ▸ hl.past hr) with ⟨hend, hnot⟩ | ⟨⟨htail, hlt, hmem⟩, heq | ⟨hne, hr'⟩⟩
  · rw [branch_end hend]
    cases op with
    | contains x => exact .inl ⟨congrArg _ (decide_eq_false hnot).symm, rfl⟩
    | add x => exact .inr ⟨⟨⟨hr, hnext, hend⟩, rfl⟩, rfl⟩
    | remove x => exact .inl ⟨congrArg _ (decide_eq_false hnot).symm, Finset.erase_eq_of_notMem hnot⟩
  · have hin := mem_keys hmem heq
    rw [branch_found htail heq]
    cases op with
    | contains x => exact .inl ⟨congrArg _ (decide_eq_true hin).symm, rfl⟩
    | add x => exact .inl ⟨congrArg _ (decide_eq_false (not_not.mpr hin)).symm, Finset.insert_eq_of_mem hin⟩
    | remove x => exact .inr ⟨⟨⟨hr.1, hnext, hmem, heq⟩, rfl⟩, rfl⟩
  · rw [branch_advance htail hlt hne]
    exact .inr ⟨hr', rfl⟩

section
variable [DecidableEq τ] {s : State α τ} {who : Option τ} (hinv : Inv E s nodes)
  (hturn : who.isSome = (s.pc none).isDone)
include hinv hturn

lemma Inv.lock (ht : s.pc who = .busy op .lock) (hfree : s.heap.lock E.head = none) :
    Inv E { s.goto who (.busy op .first) with
      heap := { s.heap with lock := update s.heap.lock E.head (some who) } } nodes := by
  refine hinv.move hturn rfl (hinv.linked.relock _) (fun u _ hin => ?_) (fun _ => update_self ..) trivial
    (hinv.key_ne ht) (hinv.record_same (logged_same rfl rfl (by rw [ht]; rfl)) rfl)
  rw [hinv.locked u hin] at hfree
  cases hfree

lemma Inv.unlock {r : Bool} (ht : s.pc who = .busy op (.unlock r)) :
    Inv E { s.goto who (.report op r) with
      heap := { s.heap with lock := update s.heap.lock E.head none } } nodes := by
  have hin : (s.pc who).Inside := ht ▸ trivial
  exact hinv.move hturn rfl (hinv.linked.relock _) (fun u hu hin' => absurd hin' (hinv.outside hin hu))
    (fun hin' => hin'.elim) trivial (hinv.key_ne ht) (hinv.record_same (logged_same rfl rfl (by rw [ht]; rfl)) rfl)

lemma Inv.list {loc : Loc α} {h' : Heap α ℕ (Option τ)} {p : Pc α} (ht : s.pc who = .busy op loc)
    (hs : listStep E s.heap who n op loc = some (h', p)) :
    ∃ nodes', Inv E { s.goto who p with heap := h' } nodes' := by
  have hl := hinv.linked
  have hknows : Knows E s.heap nodes op loc := by
    have hknows := hinv.knows who
    rwa [ht] at hknows
  cases loc with
  | lock =>
    simp only [listStep, ite_none_right_eq_some, some.injEq, mk.injEq] at hs
    obtain ⟨hfree, rfl, rfl⟩ := hs
    exact ⟨nodes, hinv.lock hturn ht hfree⟩
  | first =>
    obtain ⟨rfl, rfl⟩ := mk.inj (some.inj hs)
    exact ⟨nodes, hinv.stay hturn ht (by simp) hl rfl rfl ⟨⟨List.mem_cons_self, .inl rfl⟩, rfl⟩ rfl⟩
  | test pred curr =>
    obtain ⟨rfl, rfl⟩ := mk.inj (some.inj hs)
    rcases branch_spec hl hknows.1 hknows.2 with ⟨hend, hafter⟩ | ⟨hknows', hpending⟩
    · rw [hend]
      exact ⟨nodes, hinv.take hturn ht (by simp) rfl hl rfl hafter.symm trivial rfl⟩
    · exact ⟨nodes, hinv.stay hturn ht (by simp) hl rfl rfl hknows' hpending⟩
  | advance curr =>
    obtain ⟨rfl, rfl⟩ := mk.inj (some.inj hs)
    exact ⟨nodes, hinv.stay hturn ht (by simp) hl rfl rfl ⟨hknows, rfl⟩ rfl⟩
  | create pred curr =>
    simp only [listStep, ite_none_left_eq_some, some.injEq, mk.injEq] at hs
    obtain ⟨hn, rfl, rfl⟩ := hs
    obtain ⟨hlinked, hkeys, hgap, hpriv⟩ := hl.new hknows.1 hn s.heap.lock
    exact ⟨nodes, hinv.stay hturn ht (by simp) hlinked rfl hkeys ⟨hgap, hknows.2, hpriv, update_self ..⟩ rfl⟩
  | setNext pred curr node1 =>
    obtain ⟨rfl, rfl⟩ := mk.inj (some.inj hs)
    obtain ⟨hgap, hop, hn, hx⟩ := hknows
    obtain ⟨hlinked, hgap'⟩ := hl.setNext hgap hn
    exact ⟨nodes, hinv.stay hturn ht (by simp) hlinked rfl rfl ⟨hgap', hop, hn, hx, update_self ..⟩ rfl⟩
  | link pred curr node1 =>
    obtain ⟨rfl, rfl⟩ := mk.inj (some.inj hs)
    obtain ⟨hgap, hop, hn, hx, hnext⟩ := hknows
    have hanswer : op.answer (keys s.heap nodes) = true := by
      rw [hop]
      exact decide_eq_true (Linked.not_mem_keys (hgap.2.1 ▸ hl.past hgap.1) hgap.2.2)
    obtain ⟨us, ys, rfl, -, -, hlinked⟩ := hl.link hgap hn hx hnext
    refine ⟨us ++ node1 :: ys, hinv.take hturn ht (by simp) rfl hlinked rfl ?_ trivial (by rw [hanswer]; rfl)⟩
    rw [hop]
    exact keys_insert hx
  | readNext pred curr =>
    obtain ⟨rfl, rfl⟩ := mk.inj (some.inj hs)
    exact ⟨nodes, hinv.stay hturn ht (by simp) hl rfl rfl ⟨hknows.1, hknows.2, rfl⟩ rfl⟩
  | unlink pred curr succ =>
    obtain ⟨rfl, rfl⟩ := mk.inj (some.inj hs)
    obtain ⟨hf, hop, rfl⟩ := hknows
    have hx := hf.2.2.2
    have hanswer : op.answer (keys s.heap nodes) = true := by
      rw [hop]
      exact decide_eq_true (mem_keys hf.2.2.1 hx)
    obtain ⟨us, ys, rfl, hlinked⟩ := hl.unlink hf
    obtain ⟨hkeys, hpriv⟩ := hl.taken hx
    refine ⟨us ++ ys, hinv.take hturn ht (by simp) rfl hlinked rfl ?_ hpriv (by rw [hanswer]; rfl)⟩
    rw [hop]
    exact hkeys
  | delete curr =>
    obtain ⟨rfl, rfl⟩ := mk.inj (some.inj hs)
    exact ⟨nodes, hinv.stay hturn ht (by simp) (hl.delete hknows) rfl rfl trivial rfl⟩
  | unlock r =>
    obtain ⟨rfl, rfl⟩ := mk.inj (some.inj hs)
    exact ⟨nodes, hinv.unlock hturn ht⟩

end

/-! ## Any step -/

section
variable [DecidableEq τ] {cfg : Config} {s s' : State α τ} {a : Act α τ}

omit [DecidableEq α] [DecidableEq τ] in
lemma chosen_spec (cfg : Config) (a : Act α τ) :
    ¬(chosen cfg a).Inside ∧ (chosen cfg a).Keyed ∧ (chosen cfg a).unlogged = [] := by
  have hpos := cfg.left_pos
  have hkey (r : ℕ) : r + cfg.leftBound ≠ 0 := by omega
  unfold chosen
  split
  · exact ⟨id, hkey _, rfl⟩
  · dsimp only
    split_ifs
    · exact ⟨id, hkey _, rfl⟩
    · exact ⟨id, hkey _, rfl⟩
    · exact ⟨id, hkey _, rfl⟩

lemma step_turn (hs : step cfg E s a = some s') : a.who.isSome = (s.pc none).isDone := by
  simp only [step, ite_none_left_eq_some] at hs
  obtain ⟨hguard, hs⟩ := hs
  cases hwho : a.who with
  | none =>
    rw [hwho] at hs
    cases hpc : s.pc none with
    | done =>
      rw [hpc] at hs
      cases hs
    | _ => rfl
  | some t => simpa [hwho] using hguard

lemma Inv.step {nodes : List α} (hinv : Inv E s nodes) (hs : step cfg E s a = some s') :
    ∃ nodes', Inv E s' nodes' := by
  have hturn := step_turn hs
  simp only [Generator.step, ite_none_left_eq_some] at hs
  obtain ⟨-, hs⟩ := hs
  cases ht : s.pc a.who with
  | test =>
    have hquiet (p : Pc α) (hp : p = .draw ∨ p = .count ∨ p = .done) : Inv E (s.goto a.who p) nodes := by
      rcases hp with rfl | rfl | rfl <;>
        exact hinv.plain hturn rfl rfl (logged_same rfl rfl (by rw [ht]; rfl)) id trivial
    cases hwho : a.who with
    | none | some t =>
      simp only [hwho] at hs hquiet ht
      simp only [ht, some.injEq] at hs
      subst hs
      exact ⟨nodes, hquiet _ (by split_ifs <;> simp)⟩
  | count =>
    simp only [ht, some.injEq] at hs
    subst hs
    exact ⟨nodes, hinv.plain hturn rfl rfl (logged_same rfl rfl (by rw [ht]; rfl)) id trivial⟩
  | draw =>
    simp only [ht, some.injEq] at hs
    subst hs
    obtain ⟨houtside, hkeyed, hunlogged⟩ := chosen_spec cfg a
    exact ⟨nodes, hinv.plain hturn rfl rfl (logged_same rfl rfl (by rw [ht, hunlogged]; rfl)) houtside hkeyed⟩
  | room key =>
    have hkey : key ≠ 0 := by
      have hkeyed := hinv.keyed a.who
      rwa [ht] at hkeyed
    simp only [ht, some.injEq] at hs
    subst hs
    refine ⟨nodes, hinv.plain hturn rfl rfl (logged_same rfl rfl (by rw [ht]; rfl)) id ?_⟩
    split_ifs <;> exact hkey
  | busy op loc =>
    simp only [ht, map_eq_some_iff] at hs
    obtain ⟨⟨h', p⟩, hs, rfl⟩ := hs
    exact hinv.list hturn ht hs
  | report op r =>
    have hkey : op.key ≠ 0 := by
      have hkeyed := hinv.keyed a.who
      rwa [ht] at hkeyed
    simp only [ht, some.injEq] at hs
    subst hs
    refine ⟨nodes, hinv.plain hturn rfl rfl ?_ id hkey⟩
    funext u
    by_cases hu : u = a.who
    · simp [State.logged, State.goto, hu, ht, Pc.unlogged]
    · simp [State.logged, State.goto, hu]
  | resize op r =>
    simp only [ht, some.injEq] at hs
    subst hs
    exact ⟨nodes, hinv.plain hturn rfl rfl (logged_same rfl rfl (by rw [ht]; rfl)) id trivial⟩
  | done =>
    rw [ht] at hs
    cases hs

lemma init_inv (E : Ends α) (data : α → ℕ) (next : α → α) : Inv E (init E data next : State α τ)
    [] where
  linked := (FineList.init_inv E data next).linked
  locked := fun _ hin => hin.elim
  knows := fun _ => trivial
  keyed := fun _ => trivial
  record :=
    ⟨[], { keyed := by simp [State.logged, init, Pc.unlogged]
           alone := fun _ => rfl
           merges := fun _ => rfl
           answered := answered_nil ∅
           final := rfl }⟩

/-! ## The logs -/

/-- Some order of the operations, each thread's own kept, gives the answers in the logs. -/
theorem logs_explainable (cfg : Config) (E : Ends α) (data : α → ℕ) (next : α → α) (as : List (Act α τ))
    (s : State α τ) (hrun : Runs.exec (step cfg E) (init E data next) as = some s) (hdone : ∀ who, s.pc who = .done) :
    ∃ m, Merges (fun t => s.log (some t)) m ∧
      Checker.replay [] ((s.log none ++ m.map Prod.snd).map Entry.op) = (s.log none ++ m.map Prod.snd).map Entry.res := by
  obtain ⟨nodes, hinv⟩ := ((Runs.steps_iff_exec _ _ _ _).mpr hrun).inv (fun s => ∃ nodes, Inv E s nodes)
    (fun _ _ _ ⟨_, hinv⟩ hs => hinv.step hs) ⟨[], init_inv E data next⟩
  have hlogged : s.logged = s.log := by
    funext who
    unfold State.logged
    rw [hdone who]
    exact List.append_nil _
  obtain ⟨m, hm⟩ := hinv.record
  rw [hlogged] at hm
  refine ⟨m, hm.merges, ?_⟩
  rw [Checker.replay_eq Checker.lists_nil]
  · exact hm.answered
  · intro op hop
    obtain ⟨e, he, rfl⟩ := List.mem_map.mp hop
    exact hm.keyed_all e he

end

def twoKeys : Config where
  leftBound := 1
  rightBound := 2
  initRange := 2
  initialSize := 1
  maxSize := 2
  containPercent := 30
  totalOps := 2
  left_pos := by decide
  left_le := by decide
  right_lt := by decide

def removeMeanwhile : List (Act ℕ Bool) :=
  List.replicate 12 ⟨none, 0, 0, 2⟩ ++ List.replicate 5 ⟨some false, 0, 99, 0⟩ ++ List.replicate 3 ⟨some true, 0, 0, 0⟩ ++
    List.replicate 8 ⟨some false, 0, 99, 0⟩ ++ List.replicate 7 ⟨some true, 0, 0, 0⟩

theorem logs_explainable_removeMeanwhile :
    ∃ s m, Runs.exec (step twoKeys FineList.zeroOne) (init FineList.zeroOne (fun _ => 0) id) removeMeanwhile = some s ∧
      s.log none = [⟨.add 1, true⟩] ∧ Merges (fun t => s.log (some t)) m ∧
      Checker.replay [] ((s.log none ++ m.map Prod.snd).map Entry.op) = (s.log none ++ m.map Prod.snd).map Entry.res := by
  obtain ⟨s, hrun, hlog, hdone⟩ : ∃ s, Runs.exec (step twoKeys FineList.zeroOne)
      (init FineList.zeroOne (fun _ => 0) id) removeMeanwhile = some s ∧
      s.log none = [⟨.add 1, true⟩] ∧ ∀ who, s.pc who = .done :=
    ⟨_, rfl, rfl, by rintro (_ | _ | _) <;> rfl⟩
  obtain ⟨m, hm, hreplay⟩ := logs_explainable twoKeys FineList.zeroOne (fun _ => 0) id removeMeanwhile s hrun hdone
  exact ⟨s, m, hrun, hlog, hm, hreplay⟩

end SmcPim.Generator
