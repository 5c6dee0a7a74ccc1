import SmcPim.LazyList.Updates

/-! # What a call has seen -/

namespace SmcPim.LazyList

open FlatCombining Option LazyList

variable {α τ : Type} [DecidableEq α] [DecidableEq τ]

/-! ## Moments -/

section
variable (s₀ : State α τ) (ls : List (Label τ (SetOp ℤ) Bool α))

def Once (P : Finset ℤ → Prop) : Prop :=
  Runs.Moment (Runs.Restrict (Runs.Next step) fun _ l => InRange l) s₀ ls fun m =>
    ∃ l, m.nodes.Sorted l ∧ P (content m l)

def Absent (k : ℤ) : Prop := Once s₀ ls fun S => k ∉ S

def Right (op : SetOp ℤ) (r : Bool) : Prop := Once s₀ ls fun S => r = op.answer S

def Loc.result : Loc α → Option Bool
  | .readNext _ _ | .unlink _ _ _ => some true
  | .unlockCurr _ _ r | .unlockPrev _ r => r
  | .ret r => some r
  | _ => none

structure Found (s : State α τ) (seen : Set α) (op : SetOp ℤ) (loc : Loc α) : Prop where
  find : ∀ curr, loc = .find curr →
    curr ∈ seen ∧ (op.key < s.nodes.key curr → Absent s₀ ls op.key)
  result : ∀ r, loc.result = some r → Right s₀ ls op r

structure Hindsight (s : State α τ) (l : List α) (seen : Set α) : Prop where
  cover : ∀ p ∈ l, p ∈ seen
  inserted : ∀ p ∈ seen, Inserted s p
  past : ∀ p ∈ seen, p ∈ l ∨ s.nodes.next p ∈ seen ∧
    ∀ k, s.nodes.key p < k → k < s.nodes.key (s.nodes.next p) → Absent s₀ ls k
  dead : ∀ p ∈ seen, s.marked p = true → Absent s₀ ls (s.nodes.key p)

end

variable {s₀ s s' : State α τ} {ls : List (Label τ (SetOp ℤ) Bool α)}
  {lab : Label τ (SetOp ℤ) Bool α} {l l' : List α} {seen : Set α} {t : τ} {op : SetOp ℤ} {loc : Loc α}
  {p : α} {P : Finset ℤ → Prop}

lemma Once.mono (h : Once s₀ ls P) (ks : List (Label τ (SetOp ℤ) Bool α)) : Once s₀ (ls ++ ks) P :=
  Runs.Moment.mono h ks

lemma Once.now (hrun : Run s₀ ls s) (hl : s.nodes.Sorted l) (h : P (content s l)) : Once s₀ ls P :=
  Runs.Moment.last hrun ⟨l, hl, h⟩

lemma Hindsight.start (hinv : Inv s₀ l) : Hindsight s₀ [] s₀ l {p | p ∈ l} where
  cover := fun _ hp => hp
  inserted := hinv.inserted
  past := fun _ hp => .inl hp
  dead := fun _ hp hmark =>
    Once.now (.nil s₀) hinv.sorted (marked_notMem hinv.sorted hp hmark)

lemma Hindsight.step (h : Hindsight s₀ ls s l seen) (hrun : Run s₀ ls s) (hinv : Inv s l)
    (hrun' : Run s₀ (ls ++ [lab]) s') (hinv' : Inv s' l') (hshift : Shift s s' l l') :
    Hindsight s₀ (ls ++ [lab]) s' l' (seen ∪ {p | p ∈ l'}) where
  cover := fun p hp => .inr hp
  inserted := by
    rintro p (hp | hp)
    · exact hshift.inserted p (h.inserted p hp)
    · exact hinv'.inserted p hp
  past := by
    rintro p (hp | hp)
    · have hins := h.inserted p hp
      by_cases hl' : p ∈ l'
      · exact .inl hl'
      · right
        have hkey := hshift.key p hins.1
        by_cases hl : p ∈ l
        · -- The node is taken out now: its successor is in the list before and after.
          obtain ⟨hmax, hnext, hmem⟩ := hshift.cut p hl hl'
          have hins' := hinv.next p hins hmax
          refine ⟨.inr (hnext ▸ hmem), fun k hk hk' => ?_⟩
          rw [hkey] at hk
          rw [hnext, hshift.key _ hins'.1] at hk'
          obtain ⟨zs, ws, hsplit⟩ := hinv.next_split hl hmax
          refine Once.mono (Once.now hrun (hsplit ▸ hinv.sorted) ?_) [lab]
          exact gap_notMem (hsplit ▸ hinv.sorted) hk hk'
        · have hnext := (hshift.out p hins hl).2
          obtain ⟨hseen, hgap⟩ := (h.past p hp).resolve_left hl
          refine ⟨.inl (hnext ▸ hseen), fun k hk hk' => ?_⟩
          rw [hkey] at hk
          rw [hnext, hshift.key _ (h.inserted _ hseen).1] at hk'
          exact (hgap k hk hk').mono [lab]
    · exact .inl hp
  dead := by
    rintro p (hp | hp) hmark
    · have hins := h.inserted p hp
      rw [hshift.key p hins.1]
      rcases hshift.mark p hins hmark with hold | hl'
      · exact (h.dead p hp hold).mono [lab]
      · rw [← hshift.key p hins.1]
        exact Once.now hrun' hinv'.sorted (marked_notMem hinv'.sorted hl' hmark)
    · exact Once.now hrun' hinv'.sorted (marked_notMem hinv'.sorted hp hmark)

/-! ## The thread itself -/

lemma Found.mono (h : Found s₀ ls s seen op loc)
    (hkey : ∀ p ∈ seen, s'.nodes.key p = s.nodes.key p) :
    Found s₀ (ls ++ [lab]) s' (seen ∪ {p | p ∈ l'}) op loc := by
  refine ⟨fun curr hloc => ?_, fun r hr => (h.result r hr).mono [lab]⟩
  obtain ⟨hseen, hpast⟩ := h.find curr hloc
  refine ⟨.inl hseen, fun hlt => ?_⟩
  rw [hkey curr hseen] at hlt
  exact (hpast hlt).mono [lab]

variable {curr : α} {r : Bool}

lemma Found.of_find (hseen : curr ∈ seen)
    (h : op.key < s.nodes.key curr → Absent s₀ ls op.key) : Found s₀ ls s seen op (.find curr) :=
  ⟨fun _ hq => Loc.find.inj hq ▸ ⟨hseen, h⟩, fun _ hr => absurd hr (by simp [Loc.result])⟩

lemma Found.of_result (hloc : ∀ curr, loc ≠ .find curr) (hr : loc.result = some r)
    (h : Right s₀ ls op r) : Found s₀ ls s seen op loc :=
  ⟨fun curr hfind => absurd hfind (hloc curr), fun _ hq => some.inj (hr.symm.trans hq) ▸ h⟩

lemma Found.of_none (hloc : ∀ curr, loc ≠ .find curr) (hr : loc.result = none) :
    Found s₀ ls s seen op loc :=
  ⟨fun curr hfind => absurd hfind (hloc curr), fun _ hq => absurd (hr.symm.trans hq) (by simp)⟩

lemma Found.congr {loc' : Loc α} (h : Found s₀ ls s seen op loc) (hloc : ∀ curr, loc' ≠ .find curr)
    (hr : loc'.result = loc.result) : Found s₀ ls s seen op loc' :=
  ⟨fun curr hfind => absurd hfind (hloc curr), fun q hq => h.result q (hr ▸ hq)⟩

lemma Hindsight.find (h : Hindsight s₀ ls s l seen) (hrun : Run s₀ ls s)
    (hinv : Inv s l) (hmax : op.key < intMax) (hlt : s.nodes.key curr < op.key)
    (hseen : curr ∈ seen) : Found s₀ ls s seen op (.find (s.nodes.next curr)) := by
  rcases h.past curr hseen with hl | ⟨hnext, hgap⟩
  · obtain ⟨zs, ws, hsplit⟩ := hinv.next_split hl (lt_trans hlt hmax)
    refine .of_find (h.cover _ (by rw [hsplit]; simp)) fun hgt => ?_
    exact Once.now hrun (hsplit ▸ hinv.sorted) (gap_notMem (hsplit ▸ hinv.sorted) hlt hgt)
  · exact .of_find hnext (hgap _ hlt)

lemma Hindsight.answer (h : Hindsight s₀ ls s l seen) (hrun : Run s₀ ls s)
    (hinv : Inv s l) (hrange : intMin < op.key ∧ op.key < intMax) (hop : op = .contains op.key)
    (hge : ¬ s.nodes.key curr < op.key) (hseen : curr ∈ seen)
    (hpast : op.key < s.nodes.key curr → Absent s₀ ls op.key) :
    Right s₀ ls op (decide (s.nodes.key curr = op.key) && !s.marked curr) := by
  have hansw : ∀ S, op.answer S = decide (op.key ∈ S) := by
    rw [hop]
    exact fun S => rfl
  have habsent : Absent s₀ ls op.key → Right s₀ ls op false := by
    rintro ⟨ms, m, hms, hm, l, hl, hk⟩
    exact ⟨ms, m, hms, hm, l, hl, ((hansw _).trans (decide_eq_false hk)).symm⟩
  by_cases hkey : s.nodes.key curr = op.key
  · by_cases hmark : s.marked curr = true
    · rw [hmark, Bool.not_true, Bool.and_false]
      exact habsent (hkey ▸ h.dead curr hseen hmark)
    · have hlive := Bool.eq_false_of_not_eq_true hmark
      have hmem := hinv.live curr (h.inserted curr hseen) hlive
      rw [hlive, decide_eq_true hkey]
      refine Once.now hrun hinv.sorted ?_
      exact ((hansw _).trans (decide_eq_true (mem_content.mpr ⟨⟨curr, hmem, hlive, hkey⟩, hrange⟩))).symm
  · rw [decide_eq_false hkey, Bool.false_and]
    exact habsent (hpast (lt_of_le_of_ne (not_lt.mp hge) (Ne.symm hkey)))

lemma Inv.found_false {prev : α} (hinv : Inv s l) (hrun : Run s₀ ls s)
    (ht : s.thread t = .busy op (.testNext prev curr)) (hnext : s.nodes.next prev = curr) :
    Found s₀ ls s seen op (found s.nodes prev curr op) := by
  obtain ⟨hplace, hprev, hcurr⟩ := hinv.knows t op _ ht
  have hrange := hinv.range t op _ ht
  cases op with
  | contains v => exact .of_none (by simp [found]) rfl
  | add v =>
    dsimp only [found]
    split
    · exact .of_none (by simp) rfl
    · rename_i hkey
      have hmem := hinv.live curr hplace.curr hcurr
      refine .of_result (by simp) rfl (Once.now hrun hinv.sorted ?_)
      have hv : v ∈ content s l := mem_content.mpr ⟨⟨curr, hmem, hcurr, not_not.mp hkey⟩, hrange⟩
      simp [SetOp.answer, hv]
  | remove v =>
    dsimp only [found]
    split
    · exact .of_none (by simp) rfl
    · rename_i hkey
      obtain ⟨zs, ws, rfl⟩ := hinv.split ⟨hplace, hprev, hnext⟩ hrange.2
      refine .of_result (by simp) rfl (Once.now hrun hinv.sorted ?_)
      have hv : v ∉ content s (zs ++ prev :: curr :: ws) := gap_notMem hinv.sorted hplace.below
        (lt_of_le_of_ne hplace.above (Ne.symm hkey))
      simp [SetOp.answer, hv]

lemma Hindsight.own (h : Hindsight s₀ ls s l seen) (hrun : Run s₀ ls s) (hinv : Inv s l)
    (ht : s.thread t = .busy op loc) (hfound : Found s₀ ls s seen op loc)
    (hs : locStep s t p op loc = some s') :
    ∃ loc', s'.thread t = .busy op loc' ∧ Found s₀ ls s seen op loc' := by
  have hrange := hinv.range t op loc ht
  have hself : ∀ (s1 : State α τ) th', (s1.goto t th').thread t = th' :=
    fun s1 th' => Function.update_self ..
  cases loc with
  | find curr =>
    obtain rfl := some.inj hs
    obtain ⟨hseen, hpast⟩ := hfound.find curr rfl
    refine ⟨_, hself _ _, ?_⟩
    split
    · exact h.find hrun hinv hrange.2 (by assumption) hseen
    · have hr := h.answer hrun hinv hrange (hinv.knows t op _ ht).2 (by assumption) hseen hpast
      exact .of_result (by simp) rfl hr
  | start =>
    obtain rfl := some.inj hs
    exact ⟨_, hself _ _, .of_none (by simp) rfl⟩
  | walk prev curr =>
    obtain rfl := some.inj hs
    refine ⟨_, hself _ _, ?_⟩
    split <;> exact .of_none (by simp) rfl
  | lockPrev prev curr | lockCurr prev curr =>
    dsimp only [locStep] at hs
    split at hs
    · obtain rfl := some.inj hs
      exact ⟨_, hself _ _, .of_none (by simp) rfl⟩
    · cases hs
  | testPrev prev curr | testCurr prev curr =>
    obtain rfl := some.inj hs
    refine ⟨_, hself _ _, ?_⟩
    split <;> exact .of_none (by simp) rfl
  | testNext prev curr =>
    obtain rfl := some.inj hs
    refine ⟨_, hself _ _, ?_⟩
    split
    · exact hinv.found_false hrun ht (by assumption)
    · exact .of_none (by simp) rfl
  | getNewNode prev curr =>
    dsimp only [locStep] at hs
    split at hs
    · cases hs
    · obtain rfl := some.inj hs
      exact ⟨_, hself _ _, .of_none (by simp) rfl⟩
  | setNext prev curr newNode =>
    obtain rfl := some.inj hs
    exact ⟨_, hself _ _, .of_none (by simp) rfl⟩
  | link prev curr newNode =>
    obtain rfl := some.inj hs
    obtain ⟨-, -, hnot, -⟩ := hinv.link ht
    obtain ⟨-, -, hop, -⟩ := hinv.knows t op _ ht
    refine ⟨_, hself _ _, .of_result (by simp) rfl (Once.now hrun hinv.sorted ?_)⟩
    rw [hop]
    exact (decide_eq_true hnot).symm
  | mark prev curr =>
    obtain rfl := some.inj hs
    obtain ⟨-, hmem, -⟩ := hinv.mark ht
    obtain ⟨-, -, hop, -⟩ := hinv.knows t op _ ht
    refine ⟨_, hself _ _, .of_result (by simp) rfl (Once.now hrun hinv.sorted ?_)⟩
    rw [hop]
    exact (decide_eq_true hmem).symm
  | readNext prev curr | unlink prev curr next | unlockCurr prev curr r =>
    obtain rfl := some.inj hs
    exact ⟨_, hself _ _, hfound.congr (by simp) rfl⟩
  | unlockPrev prev r =>
    obtain rfl := some.inj hs
    cases r with
    | none => exact ⟨_, hself _ _, .of_none (by simp) rfl⟩
    | some r => exact ⟨_, hself _ _, hfound.congr (by simp) rfl⟩
  | ret r => exact absurd hs (by simp [locStep])

def Inside (t : τ) : Label τ (SetOp ℤ) Bool α → Prop
  | .call u _ | .ret u _ => u ≠ t
  | .step _ _ => True

lemma thread_of_locStep {u : τ} (hu : u ≠ t) (hs : locStep s u p op loc = some s') :
    s'.thread t = s.thread t := by
  have hother : ∀ (s1 : State α τ) th', (s1.goto u th').thread t = s1.thread t :=
    fun s1 th' => Function.update_of_ne hu.symm ..
  cases loc <;> dsimp only [locStep] at hs <;> try split at hs
  all_goals
    cases hs <;> exact hother _ _

lemma Hindsight.found (h : Hindsight s₀ ls s l seen) (hrun : Run s₀ ls s) (hinv : Inv s l)
    (ht : s.thread t = .busy op loc) (hfound : Found s₀ ls s seen op loc) (hlab : Inside t lab)
    (hs : LazyList.step s lab = some s') :
    ∃ loc', s'.thread t = .busy op loc' ∧ Found s₀ ls s seen op loc' := by
  have hother : ∀ (u : τ) th', u ≠ t → (s.goto u th').thread t = .busy op loc :=
    fun u th' hu => (Function.update_of_ne hu.symm ..).trans ht
  cases lab with
  | call u op' =>
    dsimp only [LazyList.step] at hs
    split at hs
    · obtain rfl := some.inj hs
      exact ⟨loc, hother u _ hlab, hfound⟩
    · cases hs
  | ret u r =>
    dsimp only [LazyList.step] at hs
    split at hs
    · split at hs
      · obtain rfl := some.inj hs
        exact ⟨loc, hother u _ hlab, hfound⟩
      · cases hs
    · cases hs
  | step u p =>
    dsimp only [LazyList.step] at hs
    by_cases hu : u = t
    · subst hu
      rw [ht] at hs
      exact h.own hrun hinv ht hfound hs
    · split at hs
      · cases hs
      · exact ⟨loc, (thread_of_locStep hu hs).trans ht, hfound⟩

/-! ## Runs -/

lemma Inv.run (hinv : Inv s l) (hrun : Run s ls s') :
    ∃ l', Inv s' l' ∧ Runs.Steps Updates (abs s l) (Runs.trace LazyList.step event s ls) (abs s' l') ∧
      ∀ p, Inserted s p → s.marked p = true →
        Inserted s' p ∧ s'.marked p = true ∧ (p ∉ l → p ∉ l') := by
  unfold Run at hrun
  induction hrun generalizing l with
  | nil s => exact ⟨l, hinv, .nil _, fun p hins hmark => ⟨hins, hmark, id⟩⟩
  | @cons s m s' lab ls hs _ ih =>
    obtain ⟨l1, ⟨hinv1, hshift⟩, hstep⟩ := hinv.step hs.1 hs.2
    obtain ⟨l', hinv', hsteps, hout⟩ := ih hinv1
    refine ⟨l', hinv', ?_, fun p hins hmark => ?_⟩
    · rw [Runs.trace, show LazyList.step s lab = _ from hs.2]
      exact hstep.append hsteps
    · obtain ⟨hins', hmark', hp⟩ := hout p (hshift.inserted p hins) (hshift.stay p hins hmark)
      exact ⟨hins', hmark', fun hl => hp (hshift.out p hins hl).1⟩

lemma Inv.call (hinv : Inv s₀ l) (ht : s₀.thread t = .busy op (begin s₀.nodes op))
    (hls : ∀ lab ∈ ls, Inside t lab) (hrun : Run s₀ ls s) :
    ∃ l seen loc, Inv s l ∧ Hindsight s₀ ls s l seen ∧ s.thread t = .busy op loc ∧
      Found s₀ ls s seen op loc := by
  refine Runs.Steps.inv_history (fun ls s => (∀ lab ∈ ls, Inside t lab) → ∃ l seen loc, Inv s l ∧
    Hindsight s₀ ls s l seen ∧ s.thread t = .busy op loc ∧ Found s₀ ls s seen op loc) ?_ ?_ hrun hls
  · intro _
    refine ⟨l, _, _, hinv, .start hinv, ht, ?_⟩
    cases op with
    | contains v =>
      refine .of_find hinv.head_mem fun hlt => ?_
      have hmin := (hinv.range t _ _ ht).1
      rw [hinv.sorted.head_key] at hlt
      exact absurd hlt (not_lt.mpr hmin.le)
    | add v | remove v => exact .of_none (by simp [begin]) rfl
  · intro ls s lab s' hrun ih hs hinside
    rw [List.forall_mem_append] at hinside
    obtain ⟨l, seen, loc, hinv, hseen, ht, hfound⟩ := ih hinside.1
    obtain ⟨l', ⟨hinv', hshift⟩, -⟩ := hinv.step hs.1 hs.2
    obtain ⟨loc', ht', hfound'⟩ := hseen.found hrun hinv ht hfound (hinside.2 lab (by simp)) hs.2
    have hkey : ∀ p ∈ seen, s'.nodes.key p = s.nodes.key p :=
      fun p hp => hshift.key p (hseen.inserted p hp).1
    exact ⟨l', _, loc', hinv', hseen.step hrun hinv (hrun.append (.single hs)) hinv' hshift, ht',
      hfound'.mono hkey⟩

omit [DecidableEq α] [DecidableEq τ] in
lemma init_inv {n : Nodes α} (hl : n.Sorted l) (hused : ∀ p ∈ n.used, p ∈ l) :
    Inv (init (τ := τ) n) l where
  sorted := hl
  inserted := fun p hp => ⟨hl.used p hp, fun _ => by simp [init, Thread.owned]⟩
  live := fun p hp _ => hused p hp.1
  next := by
    intro p hp hlt
    obtain ⟨zs, ws, hsplit⟩ := hl.next_split (hused p hp.1) hlt
    refine ⟨hl.used _ ?_, fun _ => by simp [init, Thread.owned]⟩
    rw [hsplit]
    simp [init]
  locks := fun t p => by simp [init, Thread.held]
  range := fun t op loc ht => absurd ht (by simp [init])
  knows := fun t op loc ht => absurd ht (by simp [init])
  apart := fun t u p _ ht => absurd ht (by simp [init, Thread.owned])

lemma answered {as bs : List (Label τ (SetOp ℤ) Bool α)} {m m' : State α τ}
    (hinv : Inv s₀ l) (hcall : Run s₀ (as ++ [.call t op]) m) (hrun : Run m bs m')
    (hbs : ∀ lab ∈ bs, Inside t lab) (hret : Run m' [.ret t r] s) : Right m bs op r := by
  obtain ⟨m1, has, hstep⟩ := Runs.Steps.of_append hcall
  obtain ⟨lm, hinvm, -⟩ := hinv.run hcall
  rcases hstep with _ | ⟨⟨-, hstep⟩, ⟨⟩⟩
  rcases hret with _ | ⟨⟨-, hret⟩, ⟨⟩⟩
  have hbegin : m.thread t = .busy op (begin m.nodes op) := by
    dsimp only [Runs.Next, step] at hstep
    split at hstep
    · obtain rfl := some.inj hstep
      exact Function.update_self ..
    · cases hstep
  obtain ⟨l', seen, loc, -, -, ht, hfound⟩ := hinvm.call hbegin hbs hrun
  dsimp only [Runs.Next, LazyList.step] at hret
  rw [ht] at hret
  split at hret
  · rename_i hloc
    split at hret
    · rename_i hr
      subst hr
      exact hfound.result r (by cases hloc; rfl)
    · cases hret
  · cases hret

/-- Each answer is that of a moment during the call, and successful updates of a key alternate. -/
theorem lazy_list_is_correct (n : Nodes α) (l₀ : List α) (hl₀ : n.Sorted l₀)
    (hused : ∀ p ∈ n.used, p ∈ l₀) (ls : List (Label τ (SetOp ℤ) Bool α)) (s : State α τ)
    (hrun : Run (init n) ls s) :
    ∃ l, s.nodes.Sorted l ∧ (∀ p, Inserted s p → s.marked p = false → p ∈ l) ∧
      (∀ as bs m lm, ls = as ++ bs → Run (init n) as m → Run m bs s → m.nodes.Sorted lm →
        ∀ p, Inserted m p → m.marked p = true → s.marked p = true ∧ (p ∉ lm → p ∉ l)) ∧
      Runs.Steps Updates (Atomic.start (n.keys l₀)) (Runs.trace step event (init n) ls) (abs s l) ∧
      (∀ k, (decide (k ∈ n.keys l₀) :: updatesOf k (Runs.trace step event (init n) ls)).IsChain
        (· ≠ ·)) ∧
      ∀ as bs t op r, ls = as ++ .call t op :: (bs ++ [.ret t r]) → (∀ lab ∈ bs, Inside t lab) →
        ∃ m, Run (init n) (as ++ [.call t op]) m ∧ Right m bs op r := by
  have hinit : Inv (init (τ := τ) n) l₀ := init_inv hl₀ hused
  obtain ⟨l, hinv, hsteps, -⟩ := hinit.run hrun
  have hstart : abs (init (τ := τ) n) l₀ = Atomic.start (n.keys l₀) := by
    refine Atomic.ext ?_ rfl
    exact congrArg n.keys (List.filter_eq_self.mpr fun _ _ => rfl)
  rw [hstart] at hsteps
  refine ⟨l, hinv.sorted, hinv.live, ?_, hsteps, fun k => Updates.alternate hsteps k, ?_⟩
  · intro as bs m lm _ has hbs hlm p hins hmark
    obtain ⟨lm', hinvm, -⟩ := hinit.run has
    obtain rfl := hinvm.sorted.unique hlm
    obtain ⟨l', hinv', -, hout⟩ := hinvm.run hbs
    obtain rfl := hinv'.sorted.unique hinv.sorted
    exact (hout p hins hmark).2
  · intro as bs t op r hls hbs
    subst hls
    rw [List.append_cons] at hrun
    obtain ⟨m, hm, hrest⟩ := Runs.Steps.of_append hrun
    obtain ⟨m', hm', hlast⟩ := Runs.Steps.of_append hrest
    exact ⟨m, hm, answered hinit hm hm' hbs hlast⟩

def addMeanwhile : List (Label Bool (SetOp ℤ) Bool ℕ) :=
  [.call false (.contains 5)] ++ (.step false 0 :: .call true (.add 5) ::
    (List.replicate 12 (.step true 3) ++ [.ret true true, .step false 0]) ++ [.ret false false])

def empty : Nodes ℕ where
  null := 0
  head := 1
  key p := if p = 1 then intMin else intMax
  next p := if p = 1 then 2 else 0
  used := [1, 2]

lemma empty_sorted : empty.Sorted [1, 2] where
  list := by simp [empty]
  ascending := by simp [Ascending, empty, intMin, intMax]
  first := rfl
  last := rfl
  used := fun _ => id

theorem lazy_list_is_correct_addMeanwhile :
    ∃ s l, Run (init empty) addMeanwhile s ∧ s.nodes.Sorted l ∧
      ∃ m, Run (init empty) [.call false (.contains 5)] m ∧
        Right m (.step false 0 :: .call true (.add 5) ::
          (List.replicate 12 (.step true 3) ++ [.ret true true, .step false 0])) (.contains 5) false := by
  obtain ⟨s, hs⟩ := Option.isSome_iff_exists.mp
    (show (Runs.exec step (init (τ := Bool) empty) addMeanwhile).isSome = true by decide +kernel)
  have hrange : ∀ lab ∈ addMeanwhile, InRange lab := by
    simp [addMeanwhile, InRange, SetOp.key, intMin, intMax]
  have hrun : Run (init empty) addMeanwhile s :=
    ((Runs.steps_iff_exec _ _ _ _).mpr hs).of_labels hrange fun _ _ _ hl hs => ⟨hl, hs⟩
  obtain ⟨l, hl, -, -, -, -, hcalls⟩ :=
    lazy_list_is_correct empty [1, 2] empty_sorted (fun _ => id) addMeanwhile s hrun
  obtain ⟨m, hm, hright⟩ := hcalls [] _ false (.contains 5) false rfl (by simp [Inside])
  exact ⟨s, l, hrun, hl, m, hm, hright⟩

end SmcPim.LazyList
