import SmcPim.FcQueue.Invariant

/-! # The steps of the threads -/

namespace SmcPim.FcQueue

open Function Option State

open FlatCombining (Malloc)

variable {τ α ρ : Type} {s s' : State τ α ρ} {slots slots' : List τ} {holder holder' : Option τ}
  {nodes nodes' : List α} {a a' : Atomic τ (Log ρ) (Op ρ) (Ans ρ)} {t u c : τ} {op : Op ρ}
  {p p' : Pass τ α ρ} {n : Name τ}

variable {x : Slot τ ρ} {ex : Prop} {status : Status (Op ρ) (Ans ρ)} {pc : Pc τ α ρ}

/-! ## Steps outside of the pass -/

lemma Inv.not_holder (h : Inv s slots holder nodes a) (ht : (s.pc t).critical = false) :
    holder ≠ some t := by
  rw [Ne, ← h.critical t, ht]
  simp

lemma Inv.holder_of_pass (h : Inv s slots holder nodes a)
    (hpc : s.pc t = .pass op p) : holder = some t :=
  (h.critical t).mp (by rw [hpc]; rfl)

lemma combining_eq_none (hpc : ∀ op p, s.pc t ≠ .pass op p) : (s.pc t).combining = none := by
  generalize s.pc t = pc at hpc
  cases pc with
  | pass op p => exact absurd rfl (hpc op p)
  | _ => rfl

lemma busy_some : busy s (some t) = (s.pc t).combining := rfl

lemma busy_congr (h : ∀ u, holder = some u → s'.pc u = s.pc u) : busy s' holder = busy s holder := by
  cases holder with
  | none => rfl
  | some u => exact congrArg Pc.combining (h u rfl)

lemma Inv.change (h : Inv s slots holder nodes a) (hf : Frame s s' slots slots' a a' t)
    (hlock : s'.lock = holder'.isSome)
    (hcritical : ∀ u, (s'.pc u).critical = true ↔ holder' = some u)
    (hexecuted : executed s' holder' = executed s holder)
    (hqueue : Queue s' nodes a'.state (busy s' holder'))
    (hchain : Chain (fun n => (s'.slot n).next.getD .first) s'.tailSlot (slots'.map .own) .first)
    (hlinked : t ∈ slots' → (s'.slot (.own t)).next ≠ none) (htls : t ∈ slots' → s'.tls t = true)
    (hown : Own (s'.slot (.own t)) (t ∈ slots') (s'.tls t) (executed s holder = some (.own t)) (a'.status t) (s'.pc t))
    (hpass : ∀ op p, s'.pc t = .pass op p → PassAt s' slots' nodes a' t p) :
    Inv s' slots' holder' nodes a' := by
  have hmem : ∀ u, u ≠ t → (u ∈ slots' ↔ u ∈ slots) := by
    intro u hu
    obtain ⟨us, rfl, hus⟩ := hf.slots
    rw [List.mem_append]
    exact or_iff_right fun hmem => hu (hus u hmem)
  have hname : ∀ u, u ≠ t → (Name.own u : Name τ) ≠ .own t := fun u hu => by simpa using hu
  refine ⟨hchain, ?_, ?_, ?_, hlock, hcritical, ?_, ?_, hqueue⟩
  · intro u hu
    by_cases hut : u = t
    · subst hut
      exact hlinked hu
    · rw [hf.slot _ (hname u hut)]
      exact h.linked u ((hmem u hut).mp hu)
  · rw [hf.slot _ (by simp)]
    exact h.ends
  · intro u hu
    by_cases hut : u = t
    · subst hut
      exact htls hu
    · rw [hf.tls u hut]
      exact h.tls u ((hmem u hut).mp hu)
  · intro u
    rw [hexecuted]
    by_cases hut : u = t
    · subst hut
      exact hown
    · rw [hf.slot _ (hname u hut), hf.tls u hut, hf.status u hut, hf.pc u hut, hmem u hut]
      exact h.own u
  · intro u op p hu
    by_cases hut : u = t
    · subst hut
      exact hpass op p hu
    · rw [hf.pc u hut] at hu
      exact hf.passAt hut (h.pass u op p hu)

lemma Inv.frame (h : Inv s slots holder nodes a) (hf : Frame s s' slots slots' a a' t)
    (ht : (s.pc t).critical = false) (ht' : (s'.pc t).critical = false) (hlock : s'.lock = s.lock)
    (hchain : Chain (fun n => (s'.slot n).next.getD .first) s'.tailSlot (slots'.map .own) .first)
    (hlinked : t ∈ slots' → (s'.slot (.own t)).next ≠ none) (htls : t ∈ slots' → s'.tls t = true)
    (hown : Own (s'.slot (.own t)) (t ∈ slots') (s'.tls t) (executed s holder = some (.own t))
      (a'.status t) (s'.pc t)) : Inv s' slots' holder nodes a' := by
  have hholder := h.not_holder ht
  have hbusy : busy s' holder = busy s holder := by
    refine busy_congr fun u hu => hf.pc u ?_
    rintro rfl
    exact hholder hu
  refine h.change hf (hlock.trans h.lock) ?_ ?_ ?_ hchain hlinked htls hown ?_
  · intro u
    by_cases hut : u = t
    · subst hut
      rw [ht']
      simpa using hholder
    · rw [hf.pc u hut]
      exact h.critical u
  · unfold executed
    rw [hbusy]
  · rw [hbusy]
    exact hf.queue h.queue
  · intro op p hp
    rw [hp] at ht'
    simp [Pc.critical] at ht'

lemma Posted.answered
    (h : Posted x ex status op) (hwaits : ¬ op.waits x.reqAns) : x.reqAns = nullValue := by
  rcases h.values with hnull | hreq
  · exact hnull
  · rw [hreq] at hwaits
    cases op with
    | add r | remove => exact absurd rfl hwaits

variable [DecidableEq τ]

@[simp] lemma State.goto_pc (s : State τ α ρ) (t : τ) (pc : Pc τ α ρ) : (s.goto t pc).pc t = pc :=
  update_self ..

lemma State.goto_pc_of_ne (hu : u ≠ t) : (s.goto t pc).pc u = s.pc u :=
  update_of_ne hu ..

lemma Frame.write {f : Slot τ ρ → Slot τ ρ}
    (hfree : t ∈ slots → (s.slot (.own t)).reqAns = nullValue) :
    Frame s ((s.write (.own t) f).goto t pc) slots slots a a t where
  slot := fun n hn => update_of_ne hn ..
  pc := fun u hu => update_of_ne hu ..
  tls := fun _ _ => rfl
  status := fun _ _ => rfl
  mine := fun hmem hreq => absurd (hfree hmem) hreq
  slots := ⟨[], rfl, by simp⟩
  tail := rfl
  head := rfl
  next := rfl
  rNode := rfl
  used := rfl
  length := rfl
  log := rfl

lemma Frame.goto (lock : Bool) (pc : Pc τ α ρ) :
    Frame s (goto { s with lock } t pc) slots slots a a t where
  slot := fun _ _ => rfl
  pc := fun u hu => update_of_ne hu ..
  tls := fun _ _ => rfl
  status := fun _ _ => rfl
  mine := fun _ _ => ⟨rfl, rfl⟩
  slots := ⟨[], rfl, by simp⟩
  tail := rfl
  head := rfl
  next := rfl
  rNode := rfl
  used := rfl
  length := rfl
  log := rfl

section
variable (h : Inv s slots holder nodes a)
include h

variable {pc : Pc τ α ρ}

lemma Inv.goto (ht : (s.pc t).critical = false) (ht' : pc.critical = false)
    (hown : Own (s.slot (.own t)) (t ∈ slots) (s.tls t) (executed s holder = some (.own t)) (a.status t) pc) :
    Inv (s.goto t pc) slots holder nodes a := by
  refine h.frame (.goto s.lock pc) ht (by rw [goto_pc]; exact ht') rfl h.chain (h.linked t) (h.tls t) ?_
  rw [goto_pc]
  exact hown

lemma Inv.write {f : Slot τ ρ → Slot τ ρ}
    (ht : (s.pc t).critical = false) (ht' : pc.critical = false)
    (hfree : t ∈ slots → (s.slot (.own t)).reqAns = nullValue)
    (hnext : t ∈ slots → (f (s.slot (.own t))).next = (s.slot (.own t)).next)
    (hown : Own (f (s.slot (.own t))) (t ∈ slots) (s.tls t) (executed s holder = some (.own t))
      (a.status t) pc) :
    Inv ((s.write (.own t) f).goto t pc) slots holder nodes a := by
  have hslot : ((s.write (.own t) f).goto t pc).slot (.own t) = f (s.slot (.own t)) :=
    update_self ..
  refine h.frame (.write hfree) ht (by rw [goto_pc]; exact ht') rfl ?_ ?_ (h.tls t) ?_
  · refine h.chain.congr fun n hn => ?_
    by_cases hnt : n = .own t
    · subst hnt
      have hmem : t ∈ slots := by simpa using hn
      rw [hslot, hnext hmem]
    · exact congrArg (fun x : Slot τ ρ => x.next.getD .first) (update_of_ne hnt ..)
  · intro hmem
    rw [hslot, hnext hmem]
    exact h.linked t hmem
  · rw [hslot, goto_pc]
    exact hown

lemma Inv.newSlot (hpc : s.pc t = .newSlot op) : Inv (State.goto { s with
      slot := update s.slot (.own t) ⟨nullValue, none, none⟩
      tls := update s.tls t true } t (.clearReq op)) slots holder nodes a := by
  have hown := h.own t
  rw [hpc] at hown
  obtain ⟨hstatus, hmem⟩ := hown
  refine h.frame ⟨fun n hn => update_of_ne hn .., fun u hu => update_of_ne hu ..,
    fun u hu => update_of_ne hu .., fun _ _ => rfl, fun h' => absurd h' hmem, ⟨[], rfl, by simp⟩,
    rfl, rfl, rfl, rfl, rfl, rfl, rfl⟩ (by rw [hpc]; rfl) ?_ rfl ?_ (absurd · hmem) (absurd · hmem) ?_
  · rw [goto_pc]
    rfl
  · refine h.chain.congr fun n hn => ?_
    have hne : n ≠ .own t := by
      rintro rfl
      exact hmem (by simpa using hn)
    exact congrArg (fun x : Slot τ ρ => x.next.getD .first) (update_of_ne hne ..)
  · rw [goto_pc]
    exact ⟨hstatus, hmem, update_self ..⟩

lemma Inv.enqueue (hpc : s.pc t = .cas op s.tailSlot) :
    Inv (State.goto { s with tailSlot := .own t } t (.writeNode op)) (t :: slots) holder nodes a := by
  have hown := h.own t
  rw [hpc] at hown
  obtain ⟨hstatus, hmem, htls, hreq, hnext⟩ := hown
  refine h.frame ⟨fun _ _ => rfl, fun u hu => update_of_ne hu .., fun _ _ => rfl, fun _ _ => rfl,
    fun h' => absurd h' hmem, ⟨[t], rfl, by simp⟩, rfl, rfl, rfl, rfl, rfl, rfl, rfl⟩ (by rw [hpc]; rfl) ?_
    rfl ?_ ?_ ?_ ?_
  · rw [goto_pc]
    rfl
  · refine .cons ?_
    change Chain _ ((s.slot (.own t)).next.getD .first) _ _
    rw [hnext]
    exact h.chain
  · intro _
    change (s.slot (.own t)).next ≠ none
    rw [hnext]
    simp
  · intro _
    exact htls
  · rw [goto_pc]
    exact ⟨hstatus, List.mem_cons_self, hreq⟩

lemma Inv.acquire (hpc : s.pc t = .lockCas op) (hlock : s.lock = false) :
    Inv (State.goto { s with lock := true } t (.pass op .getTail)) slots (some t) nodes a := by
  obtain rfl : holder = none := by
    rw [h.lock] at hlock
    simpa using hlock
  have hown := h.own t
  rw [hpc] at hown
  have hbusy : busy (State.goto { s with lock := true } t (.pass op .getTail)) (some t) = some .getTail := by
    rw [busy_some, State.goto_pc]
    rfl
  have hf : Frame s _ slots slots a a t := .goto true (.pass op .getTail)
  refine h.change hf rfl ?_ ?_ ?_ h.chain (h.linked t) (h.tls t) ?_ ?_
  · intro u
    by_cases hut : u = t
    · subst hut
      rw [goto_pc]
      simp [Pc.critical]
    · rw [goto_pc_of_ne hut]
      simpa [Ne.symm hut] using h.critical u
  · unfold executed
    rw [hbusy]
    rfl
  · rw [hbusy]
    exact (hf.queue h.queue).congr_pass rfl rfl
  · rw [goto_pc]
    exact hown
  · intro op' p hp
    rw [goto_pc] at hp
    cases hp
    exact trivial

lemma Inv.release (hpc : s.pc t = .unlock op) :
    Inv (State.goto { s with lock := false } t (.result op)) slots none nodes a := by
  obtain rfl : holder = some t := (h.critical t).mp (by rw [hpc]; rfl)
  have hown := h.own t
  rw [hpc] at hown
  have hbusy : busy s (some t) = none := by
    rw [busy_some, hpc]
    rfl
  have hf : Frame s _ slots slots a a t := .goto false (.result op)
  refine h.change hf rfl ?_ ?_ ?_ h.chain (h.linked t) (h.tls t) ?_ ?_
  · intro u
    by_cases hut : u = t
    · subst hut
      rw [goto_pc]
      simp [Pc.critical]
    · rw [goto_pc_of_ne hut]
      simpa [Ne.symm hut] using h.critical u
  · unfold executed
    rw [hbusy]
    rfl
  · have hqueue := h.queue
    rw [hbusy] at hqueue
    exact hf.queue hqueue
  · rw [goto_pc]
    exact hown
  · intro op' p hp
    rw [goto_pc] at hp
    cases hp

lemma Inv.client {status : Status (Op ρ) (Ans ρ)}
    (ht : (s.pc t).critical = false) (ht' : pc.critical = false)
    (hfree : t ∈ slots → (s.slot (.own t)).reqAns = nullValue)
    (hown : Own (s.slot (.own t)) (t ∈ slots) (s.tls t) (executed s holder = some (.own t)) status pc) :
    Inv (s.goto t pc) slots holder nodes ⟨a.state, update a.status t status⟩ := by
  refine h.frame ⟨fun _ _ => rfl, fun u hu => update_of_ne hu .., fun _ _ => rfl,
    fun u hu => update_of_ne hu .., fun hmem hreq => absurd (hfree hmem) hreq, ⟨[], rfl, by simp⟩,
    rfl, rfl, rfl, rfl, rfl, rfl, rfl⟩ ht (by rw [goto_pc]; exact ht') rfl h.chain (h.linked t) (h.tls t) ?_
  rw [State.goto_pc]
  dsimp only
  rw [update_self]
  exact hown

end

variable [DecidableEq α] {M : Malloc α}

lemma Inv.owner (h : Inv s slots holder nodes a) (ht : (s.pc t).combining = none)
    (hstep : pcStep M s t (s.pc t) = some s') : ∃ slots' holder', Inv s' slots' holder' nodes a := by
  have hown := h.own t
  generalize hpc : s.pc t = pc at ht hstep hown
  have hcritical : (∀ op, pc ≠ .unlock op) → (s.pc t).critical = false := by
    intro hne
    rw [hpc]
    cases pc with
    | pass op p => cases ht
    | unlock op => exact absurd rfl (hne op)
    | _ => rfl
  cases pc with
  | idle => cases hstep
  | getSlot op =>
    obtain rfl := some.inj hstep
    obtain ⟨hstatus, hfree, hmem⟩ := hown
    refine ⟨slots, holder, h.goto (hcritical nofun) ?_ ?_⟩
    · split <;> rfl
    · split
      · rename_i htls
        exact ⟨hstatus, hmem htls, hfree (hmem htls)⟩
      · rename_i htls
        exact ⟨hstatus, fun hmem => htls (h.tls t hmem)⟩
  | newSlot op =>
    obtain rfl := some.inj hstep
    exact ⟨slots, holder, h.newSlot hpc⟩
  | clearReq op =>
    obtain rfl := some.inj hstep
    obtain ⟨hstatus, hmem, htls⟩ := hown
    exact ⟨slots, holder, h.write (hcritical nofun) rfl (absurd · hmem) (absurd · hmem)
      ⟨hstatus, hmem, htls, rfl⟩⟩
  | getTail op =>
    obtain rfl := some.inj hstep
    exact ⟨slots, holder, h.goto (hcritical nofun) rfl hown⟩
  | setNext op tl =>
    obtain rfl := some.inj hstep
    obtain ⟨hstatus, hmem, htls, hreq⟩ := hown
    exact ⟨slots, holder, h.write (hcritical nofun) rfl (absurd · hmem) (absurd · hmem)
      ⟨hstatus, hmem, htls, hreq, rfl⟩⟩
  | cas op tl =>
    simp only [pcStep] at hstep
    split at hstep
    · rename_i htail
      obtain rfl := some.inj hstep
      subst htail
      exact ⟨t :: slots, holder, h.enqueue hpc⟩
    · obtain rfl := some.inj hstep
      obtain ⟨hstatus, hmem, htls, hreq, -⟩ := hown
      exact ⟨slots, holder, h.goto (hcritical nofun) rfl ⟨hstatus, hmem, htls, hreq⟩⟩
  | writeNode op =>
    obtain ⟨hstatus, hmem, hreq⟩ := hown
    cases op with
    | add r =>
      obtain rfl := some.inj hstep
      refine ⟨slots, holder, h.write (hcritical nofun) rfl (fun _ => hreq) (fun _ => rfl)
        ⟨hstatus, hmem, hreq, ?_⟩⟩
      rintro r' ⟨⟩
      rfl
    | remove =>
      obtain rfl := some.inj hstep
      exact ⟨slots, holder, h.goto (hcritical nofun) rfl ⟨hstatus, hmem, hreq, nofun⟩⟩
  | writeReq op =>
    obtain rfl := some.inj hstep
    obtain ⟨hstatus, hmem, hreq, hnode⟩ := hown
    exact ⟨slots, holder, h.write (hcritical nofun) rfl (fun _ => hreq) (fun _ => rfl)
      ⟨hmem, .inr rfl, (absurd · op.request_ne), fun _ _ => hstatus, fun _ => hnode⟩⟩
  | checkNext op =>
    simp only [pcStep, if_neg (h.linked t hown.1)] at hstep
    obtain rfl := some.inj hstep
    exact ⟨slots, holder, h.goto (hcritical nofun) rfl hown⟩
  | enqTail op | enqNext op tl | enqCas op tl => exact hown.elim
  | lockRead op n =>
    obtain rfl := some.inj hstep
    refine ⟨slots, holder, h.goto (hcritical nofun) ?_ ?_⟩
    · split
      · rfl
      · cases n <;> rfl
    · split
      · exact hown
      · cases n <;> exact hown
  | lockCas op =>
    simp only [pcStep] at hstep
    split at hstep
    · obtain rfl := some.inj hstep
      exact ⟨slots, holder, h.goto (hcritical nofun) rfl hown⟩
    · rename_i hlock
      obtain rfl := some.inj hstep
      exact ⟨slots, some t, h.acquire hpc (by simpa using hlock)⟩
  | waitReq op | waitLock op =>
    obtain rfl := some.inj hstep
    refine ⟨slots, holder, h.goto (hcritical nofun) ?_ ?_⟩
    · split <;> rfl
    · split <;> exact hown
  | lastReq op =>
    obtain rfl := some.inj hstep
    refine ⟨slots, holder, h.goto (hcritical nofun) ?_ ?_⟩
    · split <;> rfl
    · split
      · exact hown
      · rename_i hwaits
        have hreq := hown.2.answered hwaits
        exact ⟨hown.1, hreq, hown.2.done hreq⟩
  | pass op p => cases ht
  | unlock op =>
    obtain rfl := some.inj hstep
    exact ⟨slots, none, h.release hpc⟩
  | result op =>
    cases op with
    | add r | remove =>
      obtain rfl := some.inj hstep
      exact ⟨slots, holder, h.goto (hcritical nofun) rfl hown⟩
  | ret r => cases hstep

end SmcPim.FcQueue
