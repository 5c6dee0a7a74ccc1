import SmcPim.FlatCombining.Combiner

/-! # The publication protocol -/

namespace SmcPim.FlatCombining

open List Option FlatCombining

variable {τ Ω κ σ : Type} [DecidableEq τ] {combined : Bool} {s s' : State τ Ω κ σ}
  {slots xs ys : List τ} {holder : Option τ} {a : Atomic τ σ (Ω × κ) Bool} {t c : τ}
  {p p' : Pass τ Ω κ} {w : Walk τ} {k : Rest τ} {op : Ω} {v : κ} {r : Bool} {stamp : Int}
  {O : Sequential σ (Ω × κ) Bool} {sorted : List τ}

/-! ## Along the list -/

section
omit [DecidableEq τ]

lemma Inv.tail_eq (hinv : Inv combined s slots holder a) : s.tail = slots.head? := by
  have hchain := hinv.chain
  cases slots with
  | nil => exact Chain.nil_iff.mp hchain
  | cons x slots => exact (Chain.cons_iff.mp hchain).1

lemma Inv.next_eq (hinv : Inv combined s slots holder a) (h : slots = xs ++ c :: ys) :
    (s.slot c).next = ys.head? := by
  have hchain := hinv.chain
  rw [h, map_append, map_cons] at hchain
  have hafter := hchain.after
  cases ys with
  | nil => exact Chain.nil_iff.mp hafter
  | cons y ys => exact (Chain.cons_iff.mp hafter).1

lemma Inv.setTimestamp (hinv : Inv combined s slots holder a) (n : Int) :
    Inv combined { s with timestamp := n } slots holder a where
  chain := hinv.chain
  nodup := hinv.nodup
  object := hinv.object
  lock := hinv.lock
  critical := hinv.critical
  link := hinv.link
  request := hinv.request
  pass := fun t p hp => (hinv.pass t p hp).congr rfl

lemma Walking.skip (hw : Walking combined s slots t w xs (c :: ys)) (hne : Valid s t → t ≠ c) :
    Walking combined s slots t w (xs ++ [c]) ys where
  split := by rw [hw.split, append_assoc, singleton_append]
  requests := fun r hr => mem_append_left _ (hw.requests r hr)
  collected := ⟨hw.collected.nodup, hw.collected.valid, fun hv =>
    (hw.collected.own hv).imp_right fun hmem => (mem_cons.mp hmem).resolve_left (hne hv)⟩
  single := hw.single

lemma Walking.head_eq (hw : Walking combined s slots t w (xs ++ [c]) ys)
    (hinv : Inv combined s slots holder a) : ys.head? = (s.slot c).next := by
  have hsplit := hw.split
  rw [append_assoc, singleton_append] at hsplit
  exact (hinv.next_eq hsplit).symm

lemma Walking.moved (hw : Walking combined s slots t w xs ys) {prev curr : Option τ} :
    Walking combined s slots t ⟨w.stamp, prev, curr, w.requests⟩ xs ys :=
  { hw with }

lemma Walking.collect (hnodup : slots.Nodup) (hcomb : combined = true) (hc : Valid s c)
    (hw : Walking combined s slots t w xs (c :: ys)) :
    Walking combined s slots t { w with requests := w.requests ++ [c] } (xs ++ [c]) ys where
  split := by rw [hw.split, append_assoc, singleton_append]
  requests := by
    intro r hr
    rcases mem_append.mp hr with hr | hr
    · exact mem_append_left _ (hw.requests r hr)
    · exact mem_append_right _ hr
  collected := by
    refine ⟨?_, ?_, ?_⟩
    · rw [hw.split, nodup_append] at hnodup
      apply hw.collected.nodup.append (nodup_singleton c)
      intro r hr hrc
      obtain rfl := mem_singleton.mp hrc
      exact hnodup.2.2 r (hw.requests r hr) r mem_cons_self rfl
    · intro r hr
      rcases mem_append.mp hr with hr | hr
      · exact hw.collected.valid r hr
      · rw [mem_singleton.mp hr]
        exact hc
    · intro hv
      rcases hw.collected.own hv with hmem | hmem
      · exact .inl (mem_append_left _ hmem)
      · rcases mem_cons.mp hmem with rfl | hmem
        · exact .inl (by simp)
        · exact .inr hmem
  single := fun h => absurd h (by simp [hcomb])

end

/-! ## The pass -/

/-- What shows of a step: a call, a return, or that the request of a slot is executed. -/
def event (s : State τ Ω κ σ) :
    Label τ (Ω × κ) Bool (List τ) → Option (Label τ (Ω × κ) Bool Unit)
  | .call t op => some (.call t op)
  | .ret t r => some (.ret t r)
  | .step t _ =>
    match s.pc t with
    | .pass (.execute _ c _ _) => some (.step c ())
    | _ => none

omit [DecidableEq τ] in
lemma event_none (h : ∀ k c op v, s.pc t ≠ .pass (.execute k c op v)) :
    event s (.step t sorted) = none := by
  dsimp only [event]
  split
  · rename_i hpc
    exact (h _ _ _ _ hpc).elim
  · rfl

variable [LinearOrder κ]

lemma Inv.visit (hinv : Inv combined s slots holder a) (ht : s.pc t = .pass (.visit w))
    (hs : passStep combined O s t sorted (.visit w) = some s') :
    Inv combined s' slots holder a := by
  obtain ⟨xs, ys, hw, hcurr, hprev⟩ := hinv.pass t _ ht
  dsimp only [passStep] at hs
  split at hs
  · rename_i hnone
    obtain rfl := some.inj hs
    rw [hnone] at hcurr
    obtain rfl := head?_eq_none_iff.mp hcurr
    split
    · exact hinv.passRead ht ⟨rfl, rfl⟩ rfl hw.collected
    · rename_i hcomb
      refine hinv.passEnd ht rfl rfl fun hv => ?_
      have hmem := hw.collected.own hv
      rw [hw.single (Bool.eq_false_of_not_eq_true hcomb)] at hmem
      simp at hmem
  · rename_i c hsome
    rw [hsome] at hcurr
    obtain ⟨ys, rfl⟩ := head?_eq_some_iff.mp hcurr
    split at hs
    · rename_i hv
      split at hs
      · rename_i hcomb
        obtain rfl := some.inj hs
        exact hinv.passRead ht ⟨rfl, rfl⟩ rfl ⟨xs, ys, hw.collect hinv.nodup hcomb hv⟩
      · obtain rfl := some.inj hs
        exact hinv.passRead ht ⟨rfl, rfl⟩ rfl ⟨hv, xs, ys, hw⟩
    · rename_i hv
      obtain rfl := some.inj hs
      refine hinv.passRead ht ⟨rfl, rfl⟩ rfl ⟨xs, ys, hw, ?_, hprev⟩
      rintro hv' rfl
      exact hv hv'

lemma Inv.passStep (hinv : Inv combined s slots holder a) (ht : s.pc t = .pass p)
    (hs : passStep combined O s t sorted p = some s') :
    ∃ slots' a', Inv combined s' slots' holder a' ∧
      Runs.Steps (Atomic.Step O) a (event s (.step t sorted)).toList a' := by
  have hat := hinv.pass t p ht
  -- All steps but one leave the object alone.
  suffices h : (∀ k c op v, p ≠ .execute k c op v) → ∃ slots', Inv combined s' slots' holder a by
    by_cases hex : ∃ k c op v, p = .execute k c op v
    · obtain ⟨k, c, op, v, rfl⟩ := hex
      obtain rfl := some.inj hs
      obtain ⟨hstatus, hinv'⟩ := hinv.execute O ht
      refine ⟨slots, _, hinv', ?_⟩
      rw [event, ht]
      exact .single (.take hstatus)
    · obtain ⟨slots', hinv'⟩ := h fun k c op v hp => hex ⟨k, c, op, v, hp⟩
      refine ⟨slots', a, hinv', ?_⟩
      rw [event_none fun k c op v hp => hex ⟨k, c, op, v, Pc.pass.inj (ht.symm.trans hp)⟩]
      exact .nil a
  intro hnot
  cases p with
  | readStamp | getStamp =>
    obtain rfl := some.inj hs
    exact ⟨slots, hinv.passRead ht ⟨rfl, rfl⟩ rfl hat⟩
  | writeStamp n =>
    obtain rfl := some.inj hs
    exact ⟨slots, (hinv.setTimestamp (n + 1)).passRead ht ⟨rfl, rfl⟩ rfl hat⟩
  | getTail stamp =>
    obtain rfl := some.inj hs
    refine ⟨slots, hinv.passRead ht ⟨rfl, rfl⟩ rfl ⟨[], slots, ?_, hinv.tail_eq.symm, .inl rfl⟩⟩
    exact ⟨rfl, by simp, ⟨nodup_nil, by simp, fun hv => .inr (hat hv)⟩, fun _ => rfl⟩
  | visit w => exact ⟨slots, hinv.visit ht hs⟩
  | readOp w c | cutRead w c =>
    obtain rfl := some.inj hs
    exact ⟨slots, hinv.passRead ht ⟨rfl, rfl⟩ rfl ⟨hat, rfl⟩⟩
  | readReq w c op | loadReq stamp rest c =>
    obtain rfl := some.inj hs
    exact ⟨slots, hinv.passRead ht ⟨rfl, rfl⟩ rfl ⟨hat.1, hat.2, rfl⟩⟩
  | writeFalse w c op v =>
    obtain rfl := some.inj hs
    obtain ⟨hr, hop, hv⟩ := hat
    refine ⟨slots, hinv.passWrite ht c _ (fun _ => ⟨rfl, rfl, rfl, rfl, rfl⟩) (.inl hr.1) ⟨rfl, rfl⟩ rfl ?_⟩
    refine ⟨hr.congr (valid_write fun _ => rfl), ?_, ?_, ?_⟩
    · rw [State.write_slot_self]
      exact hop
    · rw [State.write_slot_self]
      exact hv
    · rw [State.write_slot_self]
  | stale w c =>
    obtain ⟨xs, ys, hw, hne, hprev⟩ := hat
    dsimp only [passStep] at hs
    split at hs
    · rename_i hstale
      obtain rfl := some.inj hs
      exact ⟨slots, hinv.passRead ht ⟨rfl, rfl⟩ rfl ⟨xs, ys, hw, hne, hprev.resolve_left hstale.1⟩⟩
    · obtain rfl := some.inj hs
      exact ⟨slots, hinv.passRead ht ⟨rfl, rfl⟩ rfl ⟨xs, ys, hw.skip hne⟩⟩
  | cutWrite w c d =>
    dsimp only [passStep] at hs
    split at hs
    · cases hs
    · rename_i q hq
      obtain rfl := some.inj hs
      exact hinv.cutWrite ht hq
  | cutFlag w c =>
    obtain rfl := some.inj hs
    exact ⟨slots, hinv.cutFlag ht⟩
  | cutAdvance w =>
    obtain ⟨xs, ys, hw, zs, q, rfl, hq⟩ := hat
    dsimp only [passStep] at hs
    rw [hq] at hs
    obtain rfl := some.inj hs
    exact ⟨slots, hinv.passRead ht ⟨rfl, rfl⟩ rfl
      ⟨zs ++ [q], ys, hw.moved, hw.head_eq hinv, .inr ⟨zs, q, rfl, rfl⟩⟩⟩
  | advance w c =>
    obtain ⟨xs, ys, hw⟩ := hat
    obtain rfl := some.inj hs
    exact ⟨slots, hinv.passRead ht ⟨rfl, rfl⟩ rfl
      ⟨xs ++ [c], ys, hw.moved, hw.head_eq hinv, .inr ⟨xs, c, rfl, rfl⟩⟩⟩
  | sort w =>
    dsimp only [passStep] at hs
    split at hs
    · rename_i hsorted
      obtain rfl := some.inj hs
      obtain ⟨hnodup, hvalid, hown⟩ := hat
      refine ⟨slots, hinv.passRead ht ⟨rfl, rfl⟩ rfl ⟨hsorted.1.nodup_iff.mpr hnodup, ?_, ?_⟩⟩
      · exact fun r hr => hvalid r (hsorted.1.mem_iff.mp hr)
      · exact fun hv => (hown hv).imp_left hsorted.1.mem_iff.mpr
    · cases hs
  | next stamp rest =>
    cases rest with
    | nil =>
      obtain rfl := some.inj hs
      exact ⟨slots, hinv.passEnd ht rfl rfl fun hv => by simpa using hat.own hv⟩
    | cons c rest =>
      obtain rfl := some.inj hs
      have hv := hat.valid c mem_cons_self
      refine ⟨slots, hinv.passWrite ht c _ (fun _ => ⟨rfl, rfl, rfl, rfl, rfl⟩) (.inl hv) ⟨rfl, rfl⟩ rfl ?_⟩
      exact ⟨Collected.congr hat (valid_write fun _ => rfl), by rw [State.write_slot_self]⟩
  | loadOp stamp rest c v =>
    obtain rfl := some.inj hs
    obtain ⟨hl, hret, hv⟩ := hat
    exact ⟨slots, hinv.passRead ht ⟨rfl, rfl⟩ rfl ⟨hl, rfl, hv, hret⟩⟩
  | execute k c op v => exact absurd rfl (hnot k c op v)
  | writeTrue k c r =>
    obtain rfl := some.inj hs
    obtain ⟨hr, hstatus, hret⟩ := hat
    split
    · rename_i hr'
      subst hr'
      refine ⟨slots, hinv.passWrite ht c _ (fun _ => ⟨rfl, rfl, rfl, rfl, rfl⟩) (.inl hr.valid) ⟨rfl, rfl⟩
        rfl ⟨hr.congr (valid_write fun _ => rfl), ?_⟩⟩
      rw [State.write_slot_self]
      exact hstatus
    · rename_i hr'
      rw [Bool.eq_false_of_not_eq_true hr', ← hret] at hstatus
      exact ⟨slots, hinv.passRead ht ⟨rfl, rfl⟩ rfl ⟨hr, hstatus⟩⟩
  | stampSlot k c =>
    obtain rfl := some.inj hs
    obtain ⟨hr, hstatus⟩ := hat
    refine ⟨slots, hinv.passWrite ht c _ (fun _ => ⟨rfl, rfl, rfl, rfl, rfl⟩) (.inl hr.valid) ⟨rfl, rfl⟩
      rfl ⟨hr.congr (valid_write fun _ => rfl), ?_⟩⟩
    rw [State.write_slot_self]
    exact hstatus
  | clearValid k c =>
    obtain rfl := some.inj hs
    exact ⟨slots, hinv.clearValid ht⟩

/-! ## Runs -/

omit [DecidableEq τ] [LinearOrder κ] in
lemma cutFlag_of_clearing (h : clearing s holder = some c) :
    ∃ u w, s.pc u = .pass (.cutFlag w c) := by
  unfold clearing busy at h
  simp only [bind_eq_some_iff] at h
  obtain ⟨p, ⟨u, -, hu⟩, hp⟩ := h
  cases hpc : s.pc u <;> rw [hpc] at hu <;> simp only [Pc.combining, reduceCtorEq, some.injEq] at hu
  subst hu
  rename_i q
  cases q <;> simp only [Pass.clearing, reduceCtorEq, some.injEq] at hp
  subst hp
  exact ⟨u, _, hpc⟩

lemma Inv.step (hinv : Inv combined s slots holder a) {l : Label τ (Ω × κ) Bool (List τ)}
    (hs : step combined O s l = some s') :
    ∃ slots' holder' a', Inv combined s' slots' holder' a' ∧
      Runs.Steps (Atomic.Step O) a (event s l).toList a' := by
  cases l with
  | call t op =>
    obtain ⟨op, v⟩ := op
    dsimp only [FlatCombining.step] at hs
    split at hs
    · rename_i hpc
      obtain rfl := some.inj hs
      have hlink := hinv.link t
      have hreq := hinv.request t
      rw [hpc] at hlink hreq
      obtain ⟨hvalid, hstatus⟩ := hreq
      refine ⟨slots, holder, _, hinv.move hpc rfl (.pending (op, v)) (.inl rfl) rfl
        (fun hv => absurd hv (by simp [Valid, hvalid])) (hlink.plain rfl rfl rfl rfl) ⟨hvalid, rfl⟩
        (by simp [Pc.combining]), .single (.call hstatus)⟩
    · cases hs
  | ret t r =>
    dsimp only [FlatCombining.step] at hs
    split at hs
    · rename_i r' hpc
      split at hs
      · rename_i hr
        subst hr
        obtain rfl := some.inj hs
        have hlink := hinv.link t
        have hreq := hinv.request t
        rw [hpc] at hlink hreq
        obtain ⟨hvalid, hstatus⟩ := hreq
        refine ⟨slots, holder, _, hinv.move hpc rfl .idle (.inl rfl) rfl
          (fun hv => absurd hv (by simp [Valid, hvalid])) (hlink.plain rfl rfl rfl rfl) ⟨hvalid, rfl⟩
          (by simp [Pc.combining]), .single (.ret hstatus)⟩
      · cases hs
    · cases hs
  | step t sorted =>
    by_cases hpass : ∃ p, s.pc t = .pass p
    · obtain ⟨p, hp⟩ := hpass
      dsimp only [FlatCombining.step] at hs
      rw [hp] at hs
      obtain ⟨slots', a', hinv', hsteps⟩ := hinv.passStep hp hs
      exact ⟨slots', holder, a', hinv', hsteps⟩
    · have hnot : (s.pc t).combining = none := by
        cases hpc : s.pc t with
        | pass p => exact absurd ⟨p, hpc⟩ hpass
        | _ => rfl
      obtain ⟨slots', holder', hinv'⟩ := hinv.pcStep hnot hs
      refine ⟨slots', holder', a, hinv', ?_⟩
      rw [event_none fun k c op v hp => hpass ⟨_, hp⟩]
      exact .nil a

omit [DecidableEq τ] [LinearOrder κ] in
lemma init_inv (combined : Bool) (slot : τ → Slot τ Ω κ) (x : σ) :
    Inv combined (init slot x) [] none (Atomic.start x) where
  chain := .nil _
  nodup := nodup_nil
  object := rfl
  lock := rfl
  critical := fun t => iff_of_false Bool.false_ne_true (by simp)
  link := fun t =>
    { linked := iff_of_false Bool.false_ne_true (by simp [clearing, busy, init, Pc.enqueuing])
      cut := fun h => absurd h (by simp [clearing, busy])
      enqueuing := fun h => absurd h Bool.false_ne_true
      unlinked := fun h => absurd h Bool.false_ne_true
      cas := fun site tl h => absurd h (by simp [init]) }
  request := fun t => ⟨rfl, rfl⟩
  pass := fun t p h => absurd h (by simp [init])

/-- Each request is executed once, between its call and its return, which gives the answer. -/
theorem requests_executed_once (combined : Bool) (O : Sequential σ (Ω × κ) Bool)
    (slot : τ → Slot τ Ω κ) (x : σ) (ls : List (Label τ (Ω × κ) Bool (List τ))) (s : State τ Ω κ σ)
    (hrun : Runs.Steps (Runs.Next (step combined O)) (init slot x) ls s) :
    (∃ slots : List τ, Chain (nextOf s) s.tail (slots.map some) none ∧ slots.Nodup ∧
      (∀ t ∈ slots, (s.slot t).isSlotLinked = true) ∧
      ∀ t, (s.slot t).isSlotLinked = true →
        t ∈ slots ∨ (s.pc t).enqueuing = true ∨ ∃ u w, s.pc u = .pass (.cutFlag w t)) ∧
    (∀ t u p q, s.pc t = .pass p → s.pc u = .pass q → t = u) ∧
    ∃ a, Runs.Steps (Atomic.Step O) (Atomic.start x)
        (Runs.trace (step combined O) event (init slot x) ls) a ∧
      a.state = s.object := by
  have hstep : ∀ (s : State τ Ω κ σ) l s' a, (∃ slots holder, Inv combined s slots holder a) →
      step combined O s l = some s' → ∃ a', Runs.Steps (Atomic.Step O) a (event s l).toList a' ∧
        ∃ slots holder, Inv combined s' slots holder a' := by
    rintro s l s' a ⟨slots, holder, hinv⟩ hs
    obtain ⟨slots', holder', a', hinv', hsteps⟩ := hinv.step hs
    exact ⟨a', hsteps, slots', holder', hinv'⟩
  obtain ⟨a, hsteps, slots, holder, hinv⟩ :=
    hrun.simulate event _ hstep ⟨[], none, init_inv combined slot x⟩
  refine ⟨⟨slots, hinv.chain, hinv.nodup, fun t ht => (hinv.link t).linked.mpr (.inl ht), ?_⟩, ?_, a,
    hsteps, hinv.object⟩
  · intro t ht
    rcases (hinv.link t).linked.mp ht with hmem | hcut | henq
    · exact .inl hmem
    · exact .inr (.inr (cutFlag_of_clearing hcut))
    · exact .inr (.inl henq)
  · intro t u p q hp hq
    exact Option.some.inj ((hinv.holder_eq hp).symm.trans (hinv.holder_eq hq))

def addTwice : List (Label Bool (Op × Nat) Bool (List Bool)) :=
  .call true (.add, 5) :: List.replicate 11 (.step true []) ++
    .call false (.add, 5) :: List.replicate 16 (.step false []) ++
    .step true [] :: List.replicate 25 (.step false []) ++
    .ret false true :: List.replicate 3 (.step true []) ++ [.ret true false]

def noRequests : State Bool Op Nat (Finset Nat) :=
  init (fun _ => ⟨0, 0, none, false, false, false, .contain⟩) ∅

theorem requests_executed_once_addTwice :
    ∃ s, Runs.Steps (Runs.Next (step false (listObject Nat))) noRequests addTwice s ∧
      ∃ a, Runs.Steps (Atomic.Step (listObject Nat)) (Atomic.start ∅)
        [.call true (.add, 5), .call false (.add, 5), .step false (), .step true (), .ret false true,
          .ret true false] a := by
  obtain ⟨s, hs⟩ := Option.isSome_iff_exists.mp
    (show (Runs.exec (step false (listObject Nat)) noRequests addTwice).isSome = true by decide +kernel)
  have hrun := (Runs.steps_iff_exec _ _ _ _).mpr hs
  have htrace : Runs.trace (step false (listObject Nat)) event noRequests addTwice =
      [.call true (.add, 5), .call false (.add, 5), .step false (), .step true (), .ret false true,
        .ret true false] := by decide +kernel
  obtain ⟨-, -, a, ha, -⟩ := requests_executed_once false (listObject Nat) _ ∅ addTwice s hrun
  exact ⟨s, hrun, a, htrace ▸ ha⟩

end SmcPim.FlatCombining
