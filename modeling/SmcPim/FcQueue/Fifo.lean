import SmcPim.FcQueue.Serve
import SmcPim.FlatCombining.Passes

/-! # The queue is first in, first out -/

namespace SmcPim.FcQueue

open FlatCombining (Malloc)
open FlatCombining.MyFCLinkedList (mallocAbove)

variable {τ α ρ : Type} [DecidableEq τ] [DecidableEq α] {M : Malloc α} {s s' : State τ α ρ} {slots : List τ}
  {holder : Option τ} {nodes : List α} {a : Atomic τ (Log ρ) (Op ρ) (Ans ρ)} {t : τ}

def event (s : State τ α ρ) : Label τ (Op ρ) (Ans ρ) Unit → Option (Label τ (Op ρ) (Ans ρ) Unit)
  | .step t () =>
    match s.pc t with
    | .pass _ p => takes s p
    | _ => none
  | l => some l

def Holds (s : State τ α ρ) (queued : List ρ) : Prop :=
  ∃ nodes, Chain (fun o => o.bind s.next) (some s.tail) ((s.tail :: nodes).map some) none ∧
    nodes.map s.rNode = queued.map some ∧ ∀ x ∈ s.tail :: nodes, x ∈ s.used

def Pc.inside : Pc τ α ρ → Bool
  | idle | ret _ => false
  | _ => true

/-! ## One step -/

lemma inv_init (slot : Name τ → Slot τ ρ) (next : α → Option α) (rNode : α → Option ρ) :
    Inv (init M slot next rNode) [] none [] (Atomic.start ⟨[], 0⟩) where
  chain := .nil _
  linked := nofun
  ends := by simp [init]
  tls := nofun
  lock := rfl
  critical := by simp [init, Pc.critical]
  own _ := ⟨rfl, nofun, nofun⟩
  pass := nofun
  queue :=
    { path := .cons (by simp [init])
      values := rfl
      used := by simp [init]
      removed := le_rfl
      head := ⟨[], rfl⟩
      length := rfl }

lemma Inv.progress (h : Inv s slots holder nodes a) (ht : (s.pc t).inside = true) :
    ∃ s', pcStep M s t (s.pc t) = some s' := by
  generalize hpc : s.pc t = pc at ht
  cases pc with
  | idle | ret r => cases ht
  | pass op p =>
    obtain rfl := h.holder_of_pass hpc
    obtain ⟨s', -, -, hstep, -⟩ := h.advances (M := M) hpc
    exact ⟨s', hstep⟩
  | cas op tl | enqCas op tl | lockCas op =>
    simp only [pcStep]
    split <;> exact ⟨_, rfl⟩
  | writeNode op | result op => cases op <;> exact ⟨_, rfl⟩
  | _ => exact ⟨_, rfl⟩

variable [DecidableEq ρ]

lemma Inv.step {l : Label τ (Op ρ) (Ans ρ) Unit} (h : Inv s slots holder nodes a)
    (hstep : FcQueue.step M s l = some s') :
    ∃ slots' holder' nodes' b, Inv s' slots' holder' nodes' b ∧
      Runs.Steps (Atomic.Step (fifo ρ)) a (event s l).toList b := by
  cases l with
  | call t op =>
    have hown := h.own t
    simp only [FcQueue.step] at hstep
    split at hstep
    · rename_i hpc
      obtain rfl := Option.some.inj hstep
      rw [hpc] at hown
      obtain ⟨hstatus, hfree, hmem⟩ := hown
      exact ⟨slots, holder, nodes, _, h.client (by rw [hpc]; rfl) rfl hfree ⟨rfl, hfree, hmem⟩,
        .single (.call hstatus)⟩
    · cases hstep
  | ret t r =>
    have hown := h.own t
    simp only [FcQueue.step] at hstep
    split at hstep
    · rename_i r' hpc
      split at hstep
      · rename_i hr
        subst hr
        obtain rfl := Option.some.inj hstep
        rw [hpc] at hown
        obtain ⟨hmem, hreq, hstatus⟩ := hown
        exact ⟨slots, holder, nodes, _, h.client (by rw [hpc]; rfl) rfl (fun _ => hreq)
          ⟨rfl, fun _ => hreq, fun _ => hmem⟩, .single (.ret hstatus)⟩
      · cases hstep
    · cases hstep
  | step t i =>
    simp only [FcQueue.step] at hstep
    simp only [event]
    split
    · rename_i op p hpc
      obtain rfl := h.holder_of_pass hpc
      obtain ⟨s1, nodes', b, hs1, hinv, hsteps⟩ := h.advances (M := M) hpc
      rw [hpc, pcStep, hs1] at hstep
      obtain rfl := Option.some.inj hstep
      exact ⟨slots, some t, nodes', b, hinv, hsteps⟩
    · rename_i hpc
      obtain ⟨slots', holder', hinv⟩ := h.owner (combining_eq_none hpc) hstep
      exact ⟨slots', holder', nodes, a, hinv, .nil a⟩

/-- The history is one of a queue, whose contents are in memory, and no thread is stopped. -/
theorem fc_queue_is_fifo (M : Malloc α) (slot : Name τ → Slot τ ρ) (next : α → Option α)
    (rNode : α → Option ρ)
    (ls : List (Label τ (Op ρ) (Ans ρ) Unit)) (s : State τ α ρ)
    (hrun : Runs.Steps (Runs.Next (FcQueue.step M)) (init M slot next rNode) ls s) :
    ∃ a : Atomic τ (Log ρ) (Op ρ) (Ans ρ),
      Runs.Steps (Atomic.Step (fifo ρ)) (Atomic.start ⟨[], 0⟩)
        (Runs.trace (FcQueue.step M) event (init M slot next rNode) ls) a ∧
      Holds s a.state.queued ∧
      ((∀ t op p, s.pc t ≠ .pass op p) → s.length = BitVec.ofNat 32 a.state.queued.length) ∧
      ∀ t, (s.pc t).inside = true → ∃ s', FcQueue.step M s (.step t ()) = some s' := by
  obtain ⟨a, hsteps, slots, holder, nodes, h⟩ := hrun.simulate event
    (fun s a => ∃ slots holder nodes, Inv s slots holder nodes a)
    (fun s l s' a ⟨slots, holder, nodes, h⟩ hs => by
      obtain ⟨slots', holder', nodes', b, hinv, hsteps⟩ := h.step hs
      exact ⟨b, hsteps, slots', holder', nodes', hinv⟩) ⟨[], none, [], inv_init slot next rNode⟩
  refine ⟨a, hsteps, ⟨nodes, h.queue.path, h.queue.values, h.queue.used⟩, ?_, fun t ht => h.progress ht⟩
  intro hpass
  have hbusy : busy s holder = none := by
    cases holder with
    | none => rfl
    | some t => exact combining_eq_none (hpass t)
  have hlength := h.queue.length
  rw [hbusy, Option.elim_none, add_zero, BitVec.ofInt_natCast] at hlength
  exact hlength

def addThenRemove : List (Label Bool (Op ℕ) (Ans ℕ) Unit) :=
  .call false (.add 7) :: List.replicate 25 (.step false ()) ++ [.ret false .added] ++
    .call true .remove :: List.replicate 29 (.step true ()) ++ [.ret true (.removed (some 7))]

def emptyQueue : State Bool ℕ ℕ :=
  init mallocAbove (fun _ => ⟨0, none, none⟩) (fun _ => none) (fun _ => none)

theorem fc_queue_is_fifo_addThenRemove :
    ∃ s a, Runs.exec (FcQueue.step mallocAbove) emptyQueue addThenRemove = some s ∧
      Runs.Steps (Atomic.Step (fifo ℕ)) (Atomic.start ⟨[], 0⟩)
        [.call false (.add 7), .step false (), .ret false .added,
          .call true .remove, .step true (), .ret true (.removed (some 7))] a ∧
      Holds s a.state.queued := by
  obtain ⟨s, hs⟩ := Option.isSome_iff_exists.mp
    (show (Runs.exec (FcQueue.step mallocAbove) emptyQueue addThenRemove).isSome = true by decide +kernel)
  have htrace : Runs.trace (FcQueue.step mallocAbove) event emptyQueue addThenRemove =
      [.call false (.add 7), .step false (), .ret false .added,
        .call true .remove, .step true (), .ret true (.removed (some 7))] := by decide +kernel
  obtain ⟨a, hsteps, hholds, -, -⟩ := fc_queue_is_fifo mallocAbove _ _ _ addThenRemove s
    ((Runs.steps_iff_exec _ emptyQueue _ _).mpr hs)
  exact ⟨s, a, hs, htrace ▸ hsteps, hholds⟩

end SmcPim.FcQueue
