import SmcPim.LazyList.Steps

/-! # Successful adds and deletes -/

namespace SmcPim.LazyList

open FlatCombining Function Option Thread

variable {α τ : Type}

/-! ## A set and its updates -/

def isUpdate : SetOp ℤ → Bool
  | .contains _ => false
  | .add _ | .remove _ => true

/-- A call that succeeds takes effect once before it returns; one that does not leaves the set. -/
inductive Updates [DecidableEq τ] : Atomic τ (Finset ℤ) (SetOp ℤ) Bool →
    Label τ (SetOp ℤ) Bool (SetOp ℤ) → Atomic τ (Finset ℤ) (SetOp ℤ) Bool → Prop
  | call {a : Atomic τ (Finset ℤ) (SetOp ℤ) Bool} {t : τ} {op : SetOp ℤ} (h : a.status t = .idle) :
      Updates a (.call t op) ⟨a.state, Function.update a.status t (.pending op)⟩
  | take {a : Atomic τ (Finset ℤ) (SetOp ℤ) Bool} {t : τ} {op : SetOp ℤ}
      (h : a.status t = .pending op) (hop : isUpdate op = true) (hr : op.answer a.state = true) :
      Updates a (.step t op) ⟨op.after a.state, Function.update a.status t (.answered true)⟩
  | ret {a : Atomic τ (Finset ℤ) (SetOp ℤ) Bool} {t : τ} (h : a.status t = .answered true) :
      Updates a (.ret t true) ⟨a.state, Function.update a.status t .idle⟩
  | quiet {a : Atomic τ (Finset ℤ) (SetOp ℤ) Bool} {t : τ} {op : SetOp ℤ} {r : Bool}
      (h : a.status t = .pending op) (hr : (isUpdate op && r) = false) :
      Updates a (.ret t r) ⟨a.state, Function.update a.status t .idle⟩

def updateOf (k : ℤ) : Label τ (SetOp ℤ) Bool (SetOp ℤ) → Option Bool
  | .step _ (.add k') => if k' = k then some true else none
  | .step _ (.remove k') => if k' = k then some false else none
  | _ => none

def updatesOf (k : ℤ) (ls : List (Label τ (SetOp ℤ) Bool (SetOp ℤ))) : List Bool :=
  ls.filterMap (updateOf k)

lemma updateOf_step {S : Finset ℤ} {op : SetOp ℤ} (hop : isUpdate op = true)
    (hr : op.answer S = true) (t : τ) (k : ℤ) :
    updateOf k (.step t op) = none ∧ (k ∈ op.after S ↔ k ∈ S) ∨
      updateOf k (.step t op) = some (decide (k ∈ op.after S)) ∧ (k ∈ op.after S ↔ k ∉ S) := by
  cases op with
  | contains k' => exact absurd hop (by simp [isUpdate])
  | add k' | remove k' =>
    rw [SetOp.answer, decide_eq_true_iff] at hr
    by_cases hk : k' = k
    · subst hk
      exact .inr ⟨by simp [updateOf, SetOp.after], by simp [SetOp.after, hr]⟩
    · exact .inl ⟨if_neg hk, by simp [SetOp.after, Ne.symm hk]⟩

lemma Updates.alternate [DecidableEq τ] {a b : Atomic τ (Finset ℤ) (SetOp ℤ) Bool}
    {ls : List (Label τ (SetOp ℤ) Bool (SetOp ℤ))} (h : Runs.Steps Updates a ls b) (k : ℤ) :
    (decide (k ∈ a.state) :: updatesOf k ls).IsChain (· ≠ ·) := by
  induction h with
  | nil a => exact List.isChain_singleton _
  | @cons a b c l ls hs _ ih =>
    cases hs with
    | call h | ret h | quiet h hr => exact ih
    | @take t op h hop hr =>
      rw [updatesOf] at ih ⊢
      rcases updateOf_step hop hr t k with ⟨hone, hmem⟩ | ⟨hone, hmem⟩
      · rw [List.filterMap_cons_none hone]
        simpa only [hmem] using ih
      · rw [List.filterMap_cons_some hone]
        refine List.isChain_cons_cons.mpr ⟨?_, ih⟩
        simp [hmem]

/-! ## The list does them -/

variable [DecidableEq τ] {s s' : State α τ} {l l' : List α} {t : τ} {op : SetOp ℤ} {loc : Loc α}
  {th' : Thread α}

def event (s : State α τ) : Label τ (SetOp ℤ) Bool α → Option (Label τ (SetOp ℤ) Bool (SetOp ℤ))
  | .call t op => some (.call t op)
  | .ret t r => some (.ret t r)
  | .step t _ =>
    match s.thread t with
    | .busy op (.link _ _ _) | .busy op (.mark _ _) => some (.step t op)
    | _ => none

def took (op : SetOp ℤ) : Loc α → Bool
  | .readNext _ _ | .unlink _ _ _ => true
  | .unlockCurr _ _ (some r) | .unlockPrev _ (some r) | .ret r => isUpdate op && r
  | _ => false

def Thread.status : Thread α → Status (SetOp ℤ) Bool
  | .idle => .idle
  | .busy op loc => if took op loc then .answered true else .pending op

def abs (s : State α τ) (l : List α) : Atomic τ (Finset ℤ) (SetOp ℤ) Bool :=
  ⟨content s l, fun t => (s.thread t).status⟩

lemma abs_goto (s1 : State α τ) (hthread : s1.thread = s.thread) :
    abs (s1.goto t th') l' = ⟨content s1 l', update (abs s l).status t th'.status⟩ := by
  refine Atomic.ext rfl ?_
  funext u
  change (update s1.thread t th' u).status = update (abs s l).status t th'.status u
  by_cases hut : u = t
  · subst hut
    rw [update_self, update_self]
  · rw [update_of_ne hut, update_of_ne hut, hthread]
    rfl

variable {p prev curr : α} {s1 : State α τ} {loc' : Loc α}

def Follows (s s' : State α τ) (l : List α) (lab : Label τ (SetOp ℤ) Bool α) : Prop :=
  ∃ l', Keeps s s' l l' ∧ Runs.Steps Updates (abs s l) (event s lab).toList (abs s' l')

lemma silent (hkeeps : Keeps s (s1.goto t th') l l') (hevent : event s (.step t p) = none)
    (hthread : s1.thread = s.thread) (hcontent : content s1 l' = content s l)
    (hstatus : th'.status = (s.thread t).status) : Follows s (s1.goto t th') l (.step t p) := by
  refine ⟨l', hkeeps, ?_⟩
  have hself : update (abs s l).status t th'.status = (abs s l).status := by
    rw [hstatus]
    exact update_eq_self t (abs s l).status
  rw [hevent, abs_goto (l := l) s1 hthread, hcontent, hself]
  exact .nil _

lemma effective (ht : s.thread t = .busy op loc) (hkeeps : Keeps s (s1.goto t (.busy op loc')) l l')
    (hevent : event s (.step t p) = some (.step t op)) (hthread : s1.thread = s.thread)
    (hop : isUpdate op = true) (hanswer : op.answer (content s l) = true)
    (hcontent : content s1 l' = op.after (content s l)) (hbefore : took op loc = false)
    (hafter : took op loc' = true) : Follows s (s1.goto t (.busy op loc')) l (.step t p) := by
  refine ⟨l', hkeeps, ?_⟩
  have hpending : (abs s l).status t = .pending op := by
    simp [abs, ht, status, hbefore]
  have hstatus : (busy op loc').status = .answered true := by
    simp [status, hafter]
  rw [hevent, abs_goto (l := l) s1 hthread, hcontent, hstatus]
  exact .single (.take hpending hop hanswer)

lemma Inv.silentMove (hinv : Inv s l) (ht : s.thread t = .busy op loc)
    (hevent : event s (.step t p) = none) (hheld : held loc' = held loc)
    (howned : owned loc = none ∧ owned loc' = none) (htook : took op loc' = took op loc)
    (hat : At s op loc') : Follows s (s.goto t (.busy op loc')) l (.step t p) := by
  refine silent (hinv.move (by rw [ht]; exact hheld) (by rw [ht]; exact howned.1) howned.2
    ⟨hinv.range t op loc ht, hat⟩) hevent rfl rfl ?_
  rw [ht]
  simp only [status, htook]

variable [DecidableEq α]

lemma Inv.lockStep (hinv : Inv s l) (ht : s.thread t = .busy op loc) {q : α}
    (hfree : s.lock q = none) (hevent : event s (.step t p) = none)
    (hheld : ∀ x, x ∈ held loc' ↔ x = q ∨ x ∈ held loc)
    (howned : owned loc = none ∧ owned loc' = none) (htook : took op loc' = took op loc)
    (hat : At s op loc') :
    Follows s ((s.setLock q (some t)).goto t (.busy op loc')) l (.step t p) := by
  refine silent (hinv.acquire hfree (by rw [ht]; exact hheld) (by rw [ht]; exact howned.1) howned.2
    ⟨hinv.range t op loc ht, hat⟩) hevent rfl rfl ?_
  rw [ht]
  simp only [status, htook]

lemma Inv.locStep (hinv : Inv s l) (ht : s.thread t = .busy op loc)
    (hs : locStep s t p op loc = some s') : Follows s s' l (.step t p) := by
  have hat := hinv.knows t op loc ht
  obtain ⟨hmin, hmax⟩ := hinv.range t op loc ht
  cases loc with
  | find curr =>
    obtain rfl := some.inj hs
    have hevent : event s (.step t p) = none := by simp [event, ht]
    split
    · rename_i hlt
      exact hinv.silentMove ht hevent rfl ⟨rfl, rfl⟩ rfl
        ⟨hinv.next curr hat.1 (lt_trans hlt hmax), hat.2⟩
    · refine hinv.silentMove ht hevent rfl ⟨rfl, rfl⟩ ?_ trivial
      rw [hat.2]
      rfl
  | start =>
    obtain rfl := some.inj hs
    have hhead : Inserted s s.nodes.head := hinv.inserted _ hinv.head_mem
    have hkey : s.nodes.key s.nodes.head = intMin := hinv.sorted.head_key
    have hlt : s.nodes.key s.nodes.head < intMax := hkey.trans_lt (by decide)
    exact hinv.silentMove ht (by simp [event, ht]) rfl ⟨rfl, rfl⟩ rfl
      ⟨hhead, hinv.next _ hhead hlt, hkey.trans_lt hmin⟩
  | walk prev curr =>
    obtain rfl := some.inj hs
    obtain ⟨hprev, hcurr, hbelow⟩ := hat
    have hevent : event s (.step t p) = none := by simp [event, ht]
    split
    · rename_i hlt
      exact hinv.silentMove ht hevent rfl ⟨rfl, rfl⟩ rfl
        ⟨hcurr, hinv.next curr hcurr (lt_trans hlt hmax), hlt⟩
    · rename_i hge
      exact hinv.silentMove ht hevent rfl ⟨rfl, rfl⟩ rfl ⟨hprev, hcurr, hbelow, not_lt.mp hge⟩
  | lockPrev prev curr =>
    dsimp only [LazyList.locStep] at hs
    split at hs
    · rename_i hfree
      obtain rfl := some.inj hs
      exact hinv.lockStep ht hfree (by simp [event, ht]) (fun q => by simp [held]) ⟨rfl, rfl⟩ rfl hat
    · cases hs
  | lockCurr prev curr =>
    dsimp only [LazyList.locStep] at hs
    split at hs
    · rename_i hfree
      obtain rfl := some.inj hs
      exact hinv.lockStep ht hfree (by simp [event, ht]) (fun q => by simp [held, or_comm])
        ⟨rfl, rfl⟩ rfl hat
    · cases hs
  | testPrev prev curr =>
    obtain rfl := some.inj hs
    have hevent : event s (.step t p) = none := by simp [event, ht]
    split
    · exact hinv.silentMove ht hevent rfl ⟨rfl, rfl⟩ rfl ⟨hat.prev, hat.curr, hat.ne⟩
    · rename_i hmark
      exact hinv.silentMove ht hevent rfl ⟨rfl, rfl⟩ rfl ⟨hat, Bool.eq_false_of_not_eq_true hmark⟩
  | testCurr prev curr =>
    obtain rfl := some.inj hs
    obtain ⟨hplace, hprev⟩ := hat
    have hevent : event s (.step t p) = none := by simp [event, ht]
    split
    · exact hinv.silentMove ht hevent rfl ⟨rfl, rfl⟩ rfl ⟨hplace.prev, hplace.curr, hplace.ne⟩
    · rename_i hmark
      exact hinv.silentMove ht hevent rfl ⟨rfl, rfl⟩ rfl
        ⟨hplace, hprev, Bool.eq_false_of_not_eq_true hmark⟩
  | testNext prev curr =>
    obtain rfl := some.inj hs
    obtain ⟨hplace, hprev, hcurr⟩ := hat
    have hevent : event s (.step t p) = none := by simp [event, ht]
    have hout : Inserted s prev ∧ Inserted s curr ∧ prev ≠ curr :=
      ⟨hplace.prev, hplace.curr, hplace.ne⟩
    split
    · rename_i hnext
      have hn : Neighbours s op.key prev curr := ⟨hplace, hprev, hnext⟩
      cases op with
      | contains v => exact hinv.silentMove ht hevent rfl ⟨rfl, rfl⟩ rfl hout
      | add v =>
        dsimp only [found]
        split
        · rename_i hne
          exact hinv.silentMove ht hevent rfl ⟨rfl, rfl⟩ rfl
            ⟨hn, lt_of_le_of_ne hplace.above (Ne.symm hne), rfl⟩
        · exact hinv.silentMove ht hevent rfl ⟨rfl, rfl⟩ rfl hout
      | remove v =>
        dsimp only [found]
        split
        · rename_i heq
          exact hinv.silentMove ht hevent rfl ⟨rfl, rfl⟩ rfl ⟨hn, heq, rfl, hcurr⟩
        · exact hinv.silentMove ht hevent rfl ⟨rfl, rfl⟩ rfl hout
    · exact hinv.silentMove ht hevent rfl ⟨rfl, rfl⟩ rfl hout
  | getNewNode prev curr =>
    dsimp only [LazyList.locStep] at hs
    split at hs
    · cases hs
    · rename_i hnew
      obtain rfl := some.inj hs
      rw [not_or] at hnew
      refine silent (hinv.new ht hnew.1) (by simp [event, ht]) rfl ?_ (by rw [ht]; rfl)
      exact hinv.content_new hnew.1
  | setNext prev curr newNode =>
    obtain rfl := some.inj hs
    exact silent (hinv.setNext ht) (by simp [event, ht]) rfl rfl (by rw [ht]; rfl)
  | link prev curr newNode =>
    obtain rfl := some.inj hs
    obtain ⟨l', hkeeps, hnot, hcontent⟩ := hinv.link ht
    obtain ⟨-, -, hop, -⟩ := hat
    have hanswer : op.answer (content s l) = true := by
      rw [hop]
      exact decide_eq_true hnot
    refine effective ht hkeeps (by simp [event, ht]) rfl (by rw [hop]; rfl) hanswer ?_ rfl
      (by rw [hop]; rfl)
    rw [hop]
    exact hcontent
  | mark prev curr =>
    obtain rfl := some.inj hs
    obtain ⟨hkeeps, hmem, hcontent⟩ := hinv.mark ht
    obtain ⟨-, -, hop, -⟩ := hat
    have hanswer : op.answer (content s l) = true := by
      rw [hop]
      exact decide_eq_true hmem
    refine effective ht hkeeps (by simp [event, ht]) rfl (by rw [hop]; rfl) hanswer ?_ rfl
      rfl
    rw [hop]
    exact hcontent
  | readNext prev curr =>
    obtain rfl := some.inj hs
    obtain ⟨hn, hkey, hop, hmark⟩ := hat
    exact hinv.silentMove ht (by simp [event, ht]) rfl ⟨rfl, rfl⟩ rfl ⟨hn, hkey, hop, hmark, rfl⟩
  | unlink prev curr next =>
    obtain rfl := some.inj hs
    obtain ⟨l', hkeeps, hcontent⟩ := hinv.unlink ht
    refine silent hkeeps (by simp [event, ht]) rfl hcontent ?_
    obtain ⟨-, -, hop, -⟩ := hat
    rw [ht, hop]
    rfl
  | unlockCurr prev curr r =>
    obtain rfl := some.inj hs
    refine silent (hinv.release ?_ ?_ (by rw [ht]; rfl) rfl ⟨⟨hmin, hmax⟩, hat.1⟩) (by simp [event, ht])
      rfl rfl ?_
    · simp [ht, Thread.held, held]
    · intro q
      simp only [ht, Thread.held, held, List.mem_pair, List.mem_singleton]
      constructor
      · rintro rfl
        exact ⟨hat.2.2, .inl rfl⟩
      · rintro ⟨hne, hq⟩
        exact hq.resolve_right hne
    · rw [ht]
      cases r <;> rfl
  | unlockPrev prev r =>
    obtain rfl := some.inj hs
    refine silent (hinv.release ?_ ?_ (by rw [ht]; rfl) ?_ ?_) (by simp [event, ht]) rfl rfl ?_
    · simp [ht, Thread.held, held]
    · intro q
      cases r <;> simp [ht, Thread.held, held]
    · cases r <;> rfl
    · refine ⟨⟨hmin, hmax⟩, ?_⟩
      cases r <;> trivial
    · rw [ht]
      cases r <;> rfl
  | ret r => exact absurd hs (by simp [LazyList.locStep])

lemma Inv.step {lab : Label τ (SetOp ℤ) Bool α} (hinv : Inv s l) (hlab : InRange lab)
    (hs : step s lab = some s') : Follows s s' l lab := by
  cases lab with
  | call t op =>
    dsimp only [LazyList.step] at hs
    split at hs
    · rename_i ht
      obtain rfl := some.inj hs
      have hat : At s op (begin s.nodes op) := by
        cases op with
        | contains v => exact ⟨hinv.inserted _ hinv.head_mem, rfl⟩
        | add v | remove v => trivial
      refine ⟨l, hinv.move (by rw [ht]; cases op <;> rfl) (by rw [ht]; rfl) (by cases op <;> rfl)
        ⟨hlab, hat⟩, ?_⟩
      have hpending : (busy op (begin s.nodes op)).status = .pending op := by
        cases op <;> rfl
      rw [abs_goto (l := l) s rfl, hpending]
      exact .single (.call (by simp [abs, ht, status]))
    · cases hs
  | ret t r =>
    dsimp only [LazyList.step] at hs
    split at hs
    · rename_i op r' ht
      split at hs
      · rename_i hr
        subst hr
        obtain rfl := some.inj hs
        refine ⟨l, hinv.move (by rw [ht]; rfl) (by rw [ht]; rfl) rfl trivial, ?_⟩
        rw [abs_goto (l := l) s rfl]
        refine .single ?_
        by_cases htook : (isUpdate op && r) = true
        · obtain rfl := (Bool.and_eq_true_iff.mp htook).2
          have hstep : Updates (abs s l) (.ret t true) _ :=
            .ret (by simp [abs, ht, status, took, htook])
          exact hstep
        · have hstep : Updates (abs s l) (.ret t r) _ :=
            .quiet (show _ = Status.pending op by simp [abs, ht, status, took, htook])
              (by simpa using htook)
          exact hstep
      · cases hs
    · cases hs
  | step t p =>
    dsimp only [LazyList.step] at hs
    split at hs
    · cases hs
    · rename_i op loc ht
      exact hinv.locStep ht hs

end SmcPim.LazyList
