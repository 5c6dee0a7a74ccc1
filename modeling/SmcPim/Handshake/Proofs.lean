import SmcPim.Handshake.Model

/-! # Stale completions and lost wake-ups -/

open SmcPim.Runs Option

namespace SmcPim.Handshake

variable {s t : State}

lemma step_cases {l : Label} (hs : step s l t) :
    (∃ c, l = .giveCommand c ∧ s.host = .ready ∧
        t = { s with command := c, host := .wakeUp, given := s.given ++ [c] }) ∨
      (l = .wakeUp ∧ s.host = .wakeUp ∧ t = interrupt { s with host := .checkStatus }) ∨
      (l = .checkStatus ∧ s.host = .checkStatus ∧ s.running = true ∧
        t = if s.status = .done then { s with host := .giveNop } else s) ∨
      (l = .giveNop ∧ s.host = .giveNop ∧
        t = { s with command := pimCommandNop, host := .ready, returned := s.returned + 1 }) ∨
      (l = .pim ∧ pimStep s = some t) ∨
      (l = .otherWake ∧ s.pim = .wfi ∧ t = interrupt s) := by
  change next s l = some t at hs
  obtain ⟨command, status, host, pim, given, executed, returned⟩ := s
  rcases l with c | _ | _ | _ | _ | _
  · rcases host with _ | _ | _ | _
    case ready =>
      obtain ⟨-, hs⟩ := ite_none_right_eq_some.mp hs
      exact .inl ⟨c, rfl, rfl, (some.inj hs).symm⟩
    all_goals exact absurd (show none = some t from hs) (by simp)
  · rcases host with _ | _ | _ | _
    case wakeUp =>
      obtain ⟨-, hs⟩ := ite_none_right_eq_some.mp hs
      exact .inr (.inl ⟨rfl, rfl, (some.inj hs).symm⟩)
    all_goals exact absurd (show none = some t from hs) (by simp)
  · rcases host with _ | _ | _ | _
    case checkStatus =>
      obtain ⟨hrun, hs⟩ := ite_none_right_eq_some.mp hs
      exact .inr (.inr (.inl ⟨rfl, rfl, hrun, (some.inj hs).symm⟩))
    all_goals exact absurd (show none = some t from hs) (by simp)
  · rcases host with _ | _ | _ | _
    case giveNop =>
      obtain ⟨-, hs⟩ := ite_none_right_eq_some.mp hs
      exact .inr (.inr (.inr (.inl ⟨rfl, rfl, (some.inj hs).symm⟩)))
    all_goals exact absurd (show none = some t from hs) (by simp)
  · exact .inr (.inr (.inr (.inr (.inl ⟨rfl, hs⟩))))
  · obtain ⟨hwfi, hs⟩ := ite_none_right_eq_some.mp hs
    exact .inr (.inr (.inr (.inr (.inr ⟨rfl, hwfi, (some.inj hs).symm⟩))))

/-! ## The status register follows the PIM -/

/-- Only the PIM writes its status, so that where it stands tells what it wrote last. -/
def statusAt : PimPc → Option Status
  | .wfi | .newCommandReceived | .setBusy | .clearDma => some .sleep
  | .executeCommand | .running _ | .timeStamp | .setDone => some .busy
  | .waitNop | .setSleep => some .done
  | .exited _ => none

def StatusOk (s : State) : Prop := ∀ st ∈ statusAt s.pim, s.status = st

lemma interrupt_of_wfi (h : s.pim = .wfi) :
    interrupt s = { s with pim := .newCommandReceived } := if_pos h

lemma interrupt_of_awake (h : s.pim ≠ .wfi) : interrupt s = s := if_neg h

lemma interrupt_statusOk (h : StatusOk s) : StatusOk (interrupt s) := by
  by_cases hp : s.pim = .wfi
  · rw [interrupt_of_wfi hp]
    exact fun st hst => h st (by rw [hp]; exact hst)
  · rwa [interrupt_of_awake hp]

lemma pimStep_statusOk (h : StatusOk s) (hs : pimStep s = some t) : StatusOk t := by
  cases hp : s.pim with
  | wfi | exited => simp [pimStep, hp] at hs
  | setBusy | running | timeStamp | setDone | setSleep | clearDma =>
    simp only [pimStep, hp, some.injEq] at hs
    subst hs
    simp_all [StatusOk, statusAt]
  | newCommandReceived | executeCommand | waitNop =>
    -- The three places that read the command: each of their ways out.
    simp only [pimStep, hp] at hs
    split_ifs at hs <;> simp only [some.injEq] at hs <;> subst hs <;>
      simp_all [StatusOk, statusAt]

lemma step_statusOk (s : State) (l : Label) (t : State) (h : StatusOk s) (hs : step s l t) :
    StatusOk t := by
  obtain ⟨c, -, -, rfl⟩ | ⟨-, -, rfl⟩ | ⟨-, -, -, rfl⟩ | ⟨-, -, rfl⟩ | ⟨-, hs⟩ | ⟨-, -, rfl⟩ :=
    step_cases hs
  · exact h
  · exact interrupt_statusOk h
  · split
    · exact h
    · exact h
  · exact h
  · exact pimStep_statusOk h hs
  · exact interrupt_statusOk h

/-! ## No stale completion -/

/-- One command was executed in each round, the one that the host gave. -/
def NoStaleCompletion (s : State) : Prop :=
  s.host = .ready → s.executed = s.given ∧ s.executed.length = s.returned

/-- A new command is given only once the PIM has gone back to sleep. -/
def CommandAfterSleep (s : State) : Label → Prop
  | .giveCommand _ => s.status = .sleep
  | _ => True

def ran : PimPc → Bool
  | .timeStamp | .setDone | .waitNop => true
  | _ => false

structure Round (s : State) : Prop where
  todo : ran s.pim = false → s.given = s.executed ++ [s.command]
  ran : ran s.pim = true → s.executed = s.given ∧ s.command ≠ pimCommandNop
  reads : ∀ c, s.pim = .running c → c = s.command ∧ c ≠ pimCommandNop
  notSleeping : s.pim ≠ .setSleep

structure Between (s : State) : Prop where
  agree : s.executed = s.given
  nop : s.command = pimCommandNop
  idle : s.pim = .wfi ∨ s.pim = .newCommandReceived ∨ s.pim = .waitNop ∨ s.pim = .setSleep ∨
    s.pim = .clearDma ∨ ∃ msg, s.pim = .exited msg

structure Inv (s : State) : Prop where
  status : StatusOk s
  rounds : s.given.length = if s.host = .ready then s.returned else s.returned + 1
  between : s.host = .ready → Between s
  round : s.host ≠ .ready → Round s
  done : s.host = .giveNop → s.pim = .waitNop

lemma init_inv : Inv init where
  status := by simp [StatusOk, init, statusAt]
  rounds := rfl
  between _ := ⟨rfl, rfl, Or.inl rfl⟩
  round h := absurd rfl h
  done h := by simp [init] at h

lemma pimStep_host (hs : pimStep s = some t) :
    t.host = s.host ∧ t.given = s.given ∧ t.returned = s.returned ∧ t.command = s.command := by
  unfold pimStep at hs
  split at hs <;> (try split_ifs at hs) <;> cases hs <;> simp

lemma pimStep_between (h : Between s) (hs : pimStep s = some t) : Between t := by
  obtain ⟨hagree, hnop, hidle⟩ := h
  rcases hidle with hp | hp | hp | hp | hp | ⟨msg, hp⟩ <;>
    simp only [pimStep, hp, hnop, ne_eq, not_true_eq_false, if_false, some.injEq,
      reduceCtorEq] at hs
  all_goals subst hs
  all_goals exact ⟨hagree, by simp, by simp⟩

lemma pimStep_round (h : Round s) (hs : pimStep s = some t) : Round t := by
  obtain ⟨htodo, hran, hreads, hsleep⟩ := h
  cases hp : s.pim with
  | wfi | exited => simp [pimStep, hp] at hs
  | setSleep => exact absurd hp hsleep
  | setBusy | timeStamp | setDone | clearDma =>
    simp only [pimStep, hp, some.injEq] at hs
    subst hs
    constructor <;> simp_all [ran]
  | running c =>
    -- The command ends here, and it is the one of this round.
    simp only [pimStep, hp, some.injEq] at hs
    subst hs
    obtain ⟨rfl, hc⟩ := hreads c hp
    constructor <;> simp_all [ran]
  | newCommandReceived | executeCommand | waitNop =>
    simp only [pimStep, hp] at hs
    split_ifs at hs <;> simp only [some.injEq] at hs <;> subst hs <;>
      constructor <;> simp_all [ran]

lemma interrupt_round (h : Round s) : Round (interrupt s) := by
  by_cases hp : s.pim = .wfi
  · rw [interrupt_of_wfi hp]
    refine ⟨fun _ => h.todo (by rw [hp]; rfl), ?_, ?_, ?_⟩ <;> simp [ran]
  · rwa [interrupt_of_awake hp]

lemma interrupt_between (h : Between s) : Between (interrupt s) := by
  by_cases hp : s.pim = .wfi
  · rw [interrupt_of_wfi hp]
    exact ⟨h.agree, h.nop, Or.inr (Or.inl rfl)⟩
  · rwa [interrupt_of_awake hp]

lemma interrupt_host (s : State) :
    (interrupt s).host = s.host ∧ (interrupt s).given = s.given ∧
      (interrupt s).returned = s.returned := by
  unfold interrupt; split <;> simp

lemma waitNop_of_done (hi : Inv s) (hh : s.host ≠ .ready) (hd : s.status = .done)
    (hr : s.running = true) : s.pim = .waitNop := by
  have hst := hi.status
  have hns := (hi.round hh).notSleeping
  cases hp : s.pim <;> simp_all [StatusOk, statusAt, State.running]

lemma giveCommand_round (hst : StatusOk s) (hb : Between s) (hsleep : s.status = .sleep)
    (c : UInt8) : Round { s with command := c, host := .wakeUp, given := s.given ++ [c] } := by
  rcases hb.idle with hp | hp | hp | hp | hp | ⟨msg, hp⟩ <;>
    simp only [StatusOk, hp, statusAt, hsleep, mem_def, some.injEq, forall_eq',
      reduceCtorEq] at hst <;>
    exact ⟨by simp [hb.agree], by simp [hp, ran], by simp [hp], by simp [hp]⟩

lemma pimStep_inv (hi : Inv s) (hstatus : StatusOk t) (hs : pimStep s = some t) : Inv t := by
  obtain ⟨hhost, hgiven, hret, -⟩ := pimStep_host hs
  refine ⟨hstatus, ?_, ?_, ?_, ?_⟩
  · rw [hgiven, hret, hhost]
    exact hi.rounds
  · exact fun h => pimStep_between (hi.between (hhost ▸ h)) hs
  · exact fun h => pimStep_round (hi.round (hhost ▸ h)) hs
  · intro h
    -- The command stays until the host writes `NOP`, and so does the PIM.
    have hw := hi.done (hhost ▸ h)
    have hran := (hi.round (by rw [← hhost, h]; simp)).ran (by rw [hw]; rfl)
    simp only [pimStep, hw, ne_eq, hran.2, not_false_eq_true, if_true, some.injEq] at hs
    rw [← hs, hw]

lemma step_inv (s : State) (l : Label) (t : State) (hi : Inv s)
    (hs : Restrict step CommandAfterSleep s l t) : Inv t := by
  obtain ⟨hok, hs⟩ := hs
  have hstatus := step_statusOk s l t hi.status hs
  obtain ⟨c, rfl, hh, rfl⟩ | ⟨-, hh, rfl⟩ | ⟨-, hh, hrun, rfl⟩ | ⟨-, hh, rfl⟩ | ⟨-, hs⟩ |
    ⟨-, hwfi, rfl⟩ := step_cases hs
  · refine ⟨hstatus, by simp [hi.rounds, hh], by simp, fun _ => ?_, by simp⟩
    exact giveCommand_round hi.status (hi.between hh) hok c
  · obtain ⟨hhost, hgiven, hret⟩ := interrupt_host { s with host := .checkStatus }
    have hr := hi.round (by simp [hh])
    exact ⟨hstatus, by simp [hhost, hgiven, hret, hi.rounds, hh], by simp [hhost],
      fun _ => interrupt_round { hr with }, by simp [hhost]⟩
  · split at hstatus
    · rename_i hd
      rw [if_pos hd]
      have hr := hi.round (by simp [hh])
      have hw := waitNop_of_done hi (by simp [hh]) hd hrun
      exact ⟨hstatus, by simp [hi.rounds, hh], by simp,
        fun _ => { hr with }, fun _ => hw⟩
    · rename_i hd
      rw [if_neg hd]
      exact hi
  · -- The round ends with the command run.
    have hw := hi.done hh
    have hran := (hi.round (by simp [hh])).ran (by rw [hw]; rfl)
    exact ⟨hstatus, by simp [hi.rounds, hh],
      fun _ => ⟨hran.1, rfl, Or.inr (Or.inr (Or.inl hw))⟩, by simp, by simp⟩
  · exact pimStep_inv hi hstatus hs
  · obtain ⟨hhost, hgiven, hret⟩ := interrupt_host s
    refine ⟨hstatus, by rw [hhost, hgiven, hret]; exact hi.rounds,
      fun h => interrupt_between (hi.between (hhost ▸ h)),
      fun h => interrupt_round (hi.round (hhost ▸ h)), fun h => ?_⟩
    exact absurd ((hi.done (hhost ▸ h)).symm.trans hwfi) (by simp)

/-- A command is given only to a sleeping PIM: then `wait_for_completion` returns once it was
executed. -/
theorem no_stale_completion (ls : List Label) (s : State)
    (h : Steps (Restrict step CommandAfterSleep) init ls s) : NoStaleCompletion s := by
  intro hh
  have hi := h.inv Inv step_inv init_inv
  have hrounds := hi.rounds
  rw [if_pos hh, ← (hi.between hh).agree] at hrounds
  exact ⟨(hi.between hh).agree, hrounds⟩

def round (command : UInt8) : List Label :=
  [.giveCommand command, .wakeUp, .pim, .pim, .pim, .pim, .pim, .pim, .checkStatus, .giveNop]

def afterRound (command : UInt8) : State :=
  { command := pimCommandNop, status := .done, host := .ready, pim := .waitNop
    given := [command], executed := [command], returned := 1 }

theorem no_stale_completion_one_round :
    Steps (Restrict step CommandAfterSleep) init (round pimCommandRunKernel)
      (afterRound pimCommandRunKernel) ∧
    NoStaleCompletion (afterRound pimCommandRunKernel) := by
  have h : Steps (Restrict step CommandAfterSleep) init (round pimCommandRunKernel)
      (afterRound pimCommandRunKernel) := by
    repeat (first | exact .nil _ | refine .cons ⟨by trivial, rfl⟩ ?_)
  exact ⟨h, no_stale_completion _ _ h⟩

/-- The second round starts while the PIM shows the `DONE` of the first one. -/
theorem stale_completion :
    ∃ s, Steps step init (round pimCommandRunKernel ++
        [.giveCommand pimCommandDemo, .wakeUp, .checkStatus, .giveNop]) s ∧
      s.host = .ready ∧ s.returned = 2 ∧ s.executed = [pimCommandRunKernel] ∧
      ¬ NoStaleCompletion s := by
  refine ⟨{ afterRound pimCommandRunKernel with
    given := [pimCommandRunKernel, pimCommandDemo], returned := 2 }, ?_, rfl, rfl, rfl, ?_⟩
  · rw [steps_iff_exec]; rfl
  · intro h; exact absurd (h rfl).2 (by decide)

/-- A command given while the status is not `SLEEP` completes at once. -/
theorem early_command_goes_stale (ls : List Label) (s : State) (c : UInt8)
    (h : Steps (Restrict step CommandAfterSleep) init ls s) (hh : s.host = .ready)
    (hrun : s.running = true) (hst : s.status ≠ .sleep) :
    ∃ t, Steps step s [.giveCommand c, .wakeUp, .checkStatus, .giveNop] t ∧
      ¬ NoStaleCompletion t := by
  have hi := h.inv Inv step_inv init_inv
  have hb := hi.between hh
  have hp : s.pim = .waitNop ∨ s.pim = .setSleep := by
    have := hi.status
    rcases hb.idle with hp | hp | hp | hp | hp | ⟨msg, hp⟩ <;>
      simp_all [StatusOk, statusAt, State.running]
  have hdone : s.status = .done := hi.status .done (by rcases hp with hp | hp <;> rw [hp] <;> rfl)
  refine ⟨{ s with
    command := pimCommandNop, given := s.given ++ [c], returned := s.returned + 1 }, ?_, ?_⟩
  · rw [steps_iff_exec]
    obtain ⟨command, status, host, pim, given, executed, returned⟩ := s
    simp only at hh hp hdone
    subst hh hdone
    rcases hp with rfl | rfl <;> rfl
  · intro hn
    have := (hn hh).1
    simp [hb.agree] at this

theorem early_command_goes_stale_afterRound :
    ∃ t, Steps step (afterRound pimCommandRunKernel)
        [.giveCommand pimCommandDemo, .wakeUp, .checkStatus, .giveNop] t ∧ ¬ NoStaleCompletion t := by
  refine early_command_goes_stale (round pimCommandRunKernel) _ _ ?_ rfl rfl (by decide)
  repeat (first | exact .nil _ | refine .cons ⟨by trivial, rfl⟩ ?_)

/-! ## No lost wake-up -/

/-- The PIM sleeps on a command whose interrupt is over, and the host waits for it. -/
def LostWakeUp (s : State) : Prop :=
  s.pim = .wfi ∧ s.status = .sleep ∧ s.command ≠ pimCommandNop ∧ s.host = .checkStatus

/-- The interrupt does not come between the last look of the PIM at the command and its `wfi`. -/
def InterruptInTime (s : State) : Label → Prop
  | .wakeUp => s.pim ≠ .setSleep ∧ s.pim ≠ .clearDma
  | .otherWake => False
  | _ => True

def Awake (s : State) : Prop :=
  s.host = .checkStatus → s.command ≠ pimCommandNop →
    s.pim ≠ .wfi ∧ s.pim ≠ .setSleep ∧ s.pim ≠ .clearDma

lemma pimStep_awake (h : Awake s) (hs : pimStep s = some t) : Awake t := by
  obtain ⟨hhost, -, -, hcmd⟩ := pimStep_host hs
  intro hh hc
  obtain ⟨hwfi, hsleep, hclear⟩ := h (hhost ▸ hh) (hcmd ▸ hc)
  rw [hcmd] at hc
  cases hp : s.pim with
  | wfi => exact absurd hp hwfi
  | setSleep => exact absurd hp hsleep
  | clearDma => exact absurd hp hclear
  | exited => simp [pimStep, hp] at hs
  | setBusy | running | timeStamp | setDone =>
    simp only [pimStep, hp, some.injEq] at hs
    subst hs
    simp
  | newCommandReceived | executeCommand | waitNop =>
    simp only [pimStep, hp, hc, ne_eq, not_false_eq_true, if_true, if_false] at hs
    (try split_ifs at hs) <;> cases hs <;> simp [hp]

lemma step_awake (s : State) (l : Label) (t : State) (h : Awake s)
    (hs : Restrict step InterruptInTime s l t) : Awake t := by
  obtain ⟨hok, hs⟩ := hs
  obtain ⟨c, -, -, rfl⟩ | ⟨rfl, -, rfl⟩ | ⟨-, -, -, rfl⟩ | ⟨-, -, rfl⟩ | ⟨-, hs⟩ | ⟨rfl, -, -⟩ :=
    step_cases hs
  · simp [Awake]
  · -- Either the interrupt wakes the PIM, or the PIM is still at the command before.
    intro _ _
    obtain ⟨hsleep, hclear⟩ : s.pim ≠ .setSleep ∧ s.pim ≠ .clearDma := hok
    by_cases hp : s.pim = .wfi
    · rw [interrupt_of_wfi (s := { s with host := .checkStatus }) hp]
      simp
    · rw [interrupt_of_awake (s := { s with host := .checkStatus }) hp]
      exact ⟨hp, hsleep, hclear⟩
  · split
    · simp [Awake]
    · exact h
  · simp [Awake]
  · exact pimStep_awake h hs
  · exact hok.elim

/-- In every run whose interrupts come in time, no state has the PIM asleep on a command. -/
theorem no_lost_wake_up (ls : List Label) (s : State)
    (h : Steps (Restrict step InterruptInTime) init ls s) : ¬ LostWakeUp s := by
  rintro ⟨hwfi, -, hcmd, hhost⟩
  have ha : Awake s := h.inv Awake step_awake (by simp [Awake, init])
  exact (ha hhost hcmd).1 hwfi

theorem no_lost_wake_up_one_round :
    Steps (Restrict step InterruptInTime) init (round pimCommandRunKernel)
      (afterRound pimCommandRunKernel) ∧ ¬ LostWakeUp (afterRound pimCommandRunKernel) := by
  have h : Steps (Restrict step InterruptInTime) init (round pimCommandRunKernel)
      (afterRound pimCommandRunKernel) := by
    refine .cons ⟨by trivial, rfl⟩ (.cons ⟨by simp [InterruptInTime, init], rfl⟩ ?_)
    repeat (first | exact .nil _ | refine .cons ⟨by trivial, rfl⟩ ?_)
  exact ⟨h, no_lost_wake_up _ _ h⟩

/-- The next command and its interrupt come when the PIM has read `NOP` and not yet written
`SLEEP`. -/
theorem lost_wake_up :
    ∃ s, Steps step init (round pimCommandRunKernel ++
        [.pim, .giveCommand pimCommandDemo, .wakeUp, .pim, .pim]) s ∧ LostWakeUp s := by
  refine ⟨{ command := pimCommandDemo, status := .sleep, host := .checkStatus, pim := .wfi
            given := [pimCommandRunKernel, pimCommandDemo], executed := [pimCommandRunKernel]
            returned := 1 }, ?_, rfl, rfl, by decide, rfl⟩
  rw [steps_iff_exec]; rfl

def NoOtherWake (_ : State) (l : Label) : Prop := l ≠ .otherWake

lemma LostWakeUp.stays {l : Label} (h : LostWakeUp s) (hs : Restrict step NoOtherWake s l t) : t = s := by
  obtain ⟨hwfi, hsleep, -, hhost⟩ := h
  obtain ⟨hother, hs⟩ := hs
  obtain ⟨c, -, hh, -⟩ | ⟨-, hh, -⟩ | ⟨-, -, -, rfl⟩ | ⟨-, hh, -⟩ | ⟨-, hs⟩ | ⟨hl, -, -⟩ :=
    step_cases hs
  · exact absurd (hh.symm.trans hhost) (by simp)
  · exact absurd (hh.symm.trans hhost) (by simp)
  · exact if_neg (by simp [hsleep])
  · exact absurd (hh.symm.trans hhost) (by simp)
  · simp [pimStep, hwfi] at hs
  · exact absurd hl hother

/-- An interrupt on the way of the PIM to its `wfi` can be lost, and then the host polls for ever. -/
theorem early_interrupt_is_lost (ls : List Label) (s : State) (h : Steps step init ls s)
    (hh : s.host = .wakeUp) (hcmd : s.command ≠ pimCommandNop)
    (hp : s.pim = .setSleep ∨ s.pim = .clearDma) :
    ∃ ms t, Steps step s (.wakeUp :: ms) t ∧ LostWakeUp t ∧
      ∀ ns u, Steps (Restrict step NoOtherWake) t ns u → u = t := by
  have hst : StatusOk s := h.inv StatusOk step_statusOk (by simp [StatusOk, init, statusAt])
  obtain ⟨ms, t, hrun, hlost⟩ : ∃ ms t, Steps step s (.wakeUp :: ms) t ∧ LostWakeUp t := by
    obtain ⟨command, status, host, pim, given, executed, returned⟩ := s
    simp only at hh hp hcmd
    subst hh
    rcases hp with rfl | rfl
    · exact ⟨[.pim, .pim], _, .cons rfl (.cons rfl (.cons rfl (.nil _))), rfl, rfl, hcmd, rfl⟩
    · have hsleep : status = .sleep := hst .sleep rfl
      exact ⟨[.pim], _, .cons rfl (.cons rfl (.nil _)), rfl, hsleep, hcmd, rfl⟩
  refine ⟨ms, t, hrun, hlost, fun ns u hu => ?_⟩
  exact hu.inv (· = t) (fun _ _ _ heq hs => (LostWakeUp.stays (heq ▸ hlost) hs).trans heq) rfl

theorem early_interrupt_is_lost_demo :
    ∃ s ms t, Steps step init (round pimCommandRunKernel ++ [.pim, .giveCommand pimCommandDemo]) s ∧
      Steps step s (.wakeUp :: ms) t ∧ LostWakeUp t := by
  let s : State := { afterRound pimCommandRunKernel with
    command := pimCommandDemo, host := .wakeUp, pim := .setSleep
    given := [pimCommandRunKernel, pimCommandDemo] }
  have hrun : Steps step init (round pimCommandRunKernel ++ [.pim, .giveCommand pimCommandDemo]) s := by
    rw [steps_iff_exec]
    rfl
  obtain ⟨ms, t, ht, hlost, -⟩ := early_interrupt_is_lost _ s hrun rfl (by decide) (.inl rfl)
  exact ⟨s, ms, t, hrun, ht, hlost⟩

end SmcPim.Handshake
