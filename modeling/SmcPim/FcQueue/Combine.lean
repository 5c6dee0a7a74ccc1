import SmcPim.FcQueue.Nodes
import SmcPim.FcQueue.Steps

/-! # The pass of a combiner -/

namespace SmcPim.FcQueue

open Function

open FlatCombining (Malloc)

variable {τ α ρ : Type} {s s' : State τ α ρ} {slots : List τ} {nodes nodes' : List α}
  {a a' : Atomic τ (Log ρ) (Op ρ) (Ans ρ)} {t u c : τ} {op op' : Op ρ} {p p' : Pass τ α ρ} {n : Name τ}

/-! ## The slots -/

lemma Serving.congr (h : Serving s slots t n c op)
    (hreq : ∀ m, (s'.slot m).reqAns = (s.slot m).reqAns) : Serving s' slots t n c op where
  name := h.name
  left := by
    unfold Left
    rw [hreq]
    exact h.left
  request := by
    rw [hreq]
    exact h.request

lemma Serving.unanswered (h : Serving s slots t n c op) : (s.slot (.own c)).reqAns ≠ nullValue := by
  rw [h.request]
  exact op.request_ne

lemma Waiting.congr (h : Waiting s slots a t n op)
    (hreq : ∀ m, (s'.slot m).reqAns = (s.slot m).reqAns) : Waiting s' slots a t n op := by
  obtain ⟨c, hc, hstatus⟩ := h
  exact ⟨c, hc.congr hreq, hstatus⟩

lemma Answered.congr (h : Answered s slots a t n) (hslot : s'.slot = s.slot) :
    Answered s' slots a t n := by
  obtain ⟨c, op, hc, hstatus⟩ := h
  exact ⟨c, op, hc.congr fun _ => by rw [hslot], by rw [hslot]; exact hstatus⟩

lemma Own.posted {x : Slot τ ρ} {mem ex : Prop} {tls : Bool} {status : Status (Op ρ) (Ans ρ)}
    {pc : Pc τ α ρ} (h : Own x mem tls ex status pc) (hmem : mem) (hreq : x.reqAns ≠ nullValue) :
    ∃ op, Posted x ex status op ∧
      ∀ x' ex' status', Posted x' ex' status' op → Own x' mem tls ex' status' pc := by
  cases pc with
  | idle | getSlot op => exact absurd (h.2.1 hmem) hreq
  | newSlot op => exact absurd hmem h.2
  | clearReq op | getTail op | setNext op tl | cas op tl => exact absurd hmem h.2.1
  | writeNode op => exact absurd h.2.2 hreq
  | writeReq op => exact absurd h.2.2.1 hreq
  | enqTail op | enqNext op tl | enqCas op tl => exact h.elim
  | unlock op | result op | ret r => exact absurd h.2.1 hreq
  | checkNext op | lockRead op n | lockCas op | waitReq op | waitLock op | lastReq op | pass op p =>
    exact ⟨op, h.2, fun _ _ _ h' => ⟨hmem, h'⟩⟩

lemma nameOf_eq {next : Name τ → Name τ} {n : Name τ} {ys : List τ}
    (h : Chain next n (ys.map .own) .first) : n = nameOf ys := by
  cases ys with
  | nil => exact Chain.nil_iff.mp h
  | cons c ys => exact (Chain.cons_iff.mp h).1

/-! ## Steps of the combiner -/

lemma Inv.passed (h : Inv s slots (some t) nodes a) (hpc : s.pc t = .pass op p) :
    busy s (some t) = some p ∧ PassAt s slots nodes a t p ∧ Queue s nodes a.state (some p) := by
  have hbusy : busy s (some t) = some p := by
    rw [busy_some, hpc]
    rfl
  refine ⟨hbusy, h.pass t op p hpc, ?_⟩
  rw [← hbusy]
  exact h.queue

lemma Inv.found (h : Inv s slots (some t) nodes a) (hpc : s.pc t = .pass op p)
    (hp : p.executed = none) (hc : c ∈ slots) (hreq : (s.slot (.own c)).reqAns ≠ nullValue) :
    ∃ op', (s.slot (.own c)).reqAns = op'.request ∧ a.status c = .pending op' ∧
      ∀ r, op' = .add r → (s.slot (.own c)).rNode = some r := by
  have hown := h.own c
  unfold executed at hown
  rw [(h.passed hpc).1] at hown
  obtain ⟨op', hposted, -⟩ := hown.posted hc hreq
  refine ⟨op', hposted.values.resolve_left hreq, hposted.waiting hreq ?_, hposted.node hreq⟩
  rw [Option.bind_some, hp]
  simp

variable [DecidableEq τ]

structure Kept (s s' : State τ α ρ) (t : τ) (op : Op ρ) (p' : Pass τ α ρ) : Prop where
  tailSlot : s'.tailSlot = s.tailSlot
  tls : s'.tls = s.tls
  lock : s'.lock = s.lock
  next : ∀ n, (s'.slot n).next = (s.slot n).next
  pc : s'.pc = Function.update s.pc t (.pass op p')

lemma Kept.goto {s0 : State τ α ρ} (p' : Pass τ α ρ)
    (hs : s0.tailSlot = s.tailSlot ∧ s0.tls = s.tls ∧ s0.lock = s.lock ∧ s0.pc = s.pc)
    (hnext : ∀ m, (s0.slot m).next = (s.slot m).next) : Kept s (s0.goto t (.pass op p')) t op p' where
  tailSlot := hs.1
  tls := hs.2.1
  lock := hs.2.2.1
  next := hnext
  pc := by rw [← hs.2.2.2]; rfl

lemma State.write_slot (f : Slot τ ρ → Slot τ ρ) :
    (s.write n f).slot = update s.slot n (f (s.slot n)) := rfl

lemma State.write_field {β : Type} {f : Slot τ ρ → Slot τ ρ} (g : Slot τ ρ → β)
    (hf : ∀ x, g (f x) = g x) (m : Name τ) : g ((s.write n f).slot m) = g (s.slot m) := by
  rw [State.write_slot]
  by_cases hm : m = n
  · subst hm
    rw [update_self, hf]
  · rw [update_of_ne hm]

section
variable (h : Inv s slots (some t) nodes a) (hpc : s.pc t = .pass op p) (hk : Kept s s' t op p')
include h hpc hk

lemma Inv.combine
    (hown : ∀ u, Own (s'.slot (.own u)) (u ∈ slots) (s.tls u) (p'.executed = some (.own u)) (a'.status u) (s.pc u))
    (hpass : PassAt s' slots nodes' a' t p') (hqueue : Queue s' nodes' a'.state (some p')) :
    Inv s' slots (some t) nodes' a' := by
  have hpc' : s'.pc t = .pass op p' := by rw [hk.pc, update_self]
  have hbusy : busy s' (some t) = some p' := by
    rw [busy_some, hpc']
    rfl
  refine ⟨?_, ?_, ?_, ?_, ?_, ?_, ?_, ?_, ?_⟩
  · rw [hk.tailSlot]
    exact h.chain.congr fun n _ => by rw [hk.next]
  · intro u hu
    rw [hk.next]
    exact h.linked u hu
  · rw [hk.next]
    exact h.ends
  · rw [hk.tls]
    exact h.tls
  · rw [hk.lock]
    exact h.lock
  · intro u
    by_cases hut : u = t
    · subst hut
      simp [hpc', Pc.critical]
    · rw [hk.pc, update_of_ne hut]
      exact h.critical u
  · intro u
    unfold executed
    rw [hbusy, hk.tls]
    have hu := hown u
    by_cases hut : u = t
    · subst hut
      rw [hpc] at hu
      rw [hpc']
      exact hu
    · rw [hk.pc, update_of_ne hut]
      exact hu
  · intro u op' q hq
    by_cases hut : u = t
    · subst hut
      rw [hpc'] at hq
      cases hq
      exact hpass
    · have hcrit := h.critical u
      rw [hk.pc, update_of_ne hut] at hq
      rw [hq] at hcrit
      exact absurd (Option.some.inj (hcrit.mp rfl)).symm hut
  · rw [hbusy]
    exact hqueue

lemma Inv.quiet
    (hslot : s'.slot = s.slot) (hexecuted : p'.executed = p.executed) (hpass : PassAt s' slots nodes a t p')
    (hqueue : Queue s' nodes a.state (some p')) : Inv s' slots (some t) nodes a := by
  refine h.combine hpc hk ?_ hpass hqueue
  intro u
  have hu := h.own u
  unfold executed at hu
  rw [(h.passed hpc).1] at hu
  rw [hslot, hexecuted]
  exact hu

lemma Inv.serve
    (hc : Serving s slots t n c op') (hslot : ∀ m, m ≠ .own c → s'.slot m = s.slot m)
    (hstatus : ∀ u, u ≠ c → a'.status u = a.status u)
    (hex : ∀ m, p.executed = some m → m = .own c) (hex' : ∀ m, p'.executed = some m → m = .own c)
    (hposted : ∀ o, Posted (s.slot (.own c)) (p.executed = some (.own c)) (a.status c) o →
      Posted (s'.slot (.own c)) (p'.executed = some (.own c)) (a'.status c) o)
    (hpass : PassAt s' slots nodes' a' t p') (hqueue : Queue s' nodes' a'.state (some p')) :
    Inv s' slots (some t) nodes' a' := by
  refine h.combine hpc hk ?_ hpass hqueue
  intro u
  have hu := h.own u
  unfold executed at hu
  rw [(h.passed hpc).1] at hu
  by_cases huc : u = c
  · subst huc
    obtain ⟨ys, ⟨xs, hxs⟩, -⟩ := hc.left
    obtain ⟨o, hpost, hkeep⟩ := hu.posted (by simp [hxs]) hc.unanswered
    exact hkeep _ _ _ (hposted o hpost)
  · have hiff : (p'.executed = some (.own u)) = (p.executed = some (.own u)) :=
      propext (iff_of_false (fun h => huc (Name.own.inj (hex' _ h))) fun h => huc (Name.own.inj (hex _ h)))
    rw [hslot _ (by simpa using huc), hstatus u huc, hiff]
    exact hu

end

lemma Inv.finish (h : Inv s slots (some t) nodes a) (hpc : s.pc t = .pass op (.visit n))
    (hreq : (s.slot (.own t)).reqAns = nullValue) : Inv (s.goto t (.unlock op)) slots (some t) nodes a := by
  obtain ⟨hbusy, -, hqueue⟩ := h.passed hpc
  have hown := h.own t
  rw [hpc] at hown
  have hbusy' : busy (s.goto t (.unlock op)) (some t) = none := by
    rw [busy_some, State.goto_pc]
    rfl
  have hf : Frame s _ slots slots a a t := .goto s.lock (.unlock op)
  refine h.change hf h.lock ?_ ?_ ?_ h.chain (h.linked t) (h.tls t) ?_ ?_
  · intro u
    by_cases hut : u = t
    · subst hut
      rw [State.goto_pc]
      simp [Pc.critical]
    · rw [State.goto_pc_of_ne hut]
      exact h.critical u
  · unfold executed
    rw [hbusy, hbusy']
    rfl
  · rw [hbusy']
    exact (hf.queue hqueue).congr_pass rfl rfl
  · rw [State.goto_pc]
    exact ⟨hown.1, hreq, hown.2.done hreq⟩
  · intro op' p hp
    rw [State.goto_pc] at hp
    cases hp

end SmcPim.FcQueue
