import SmcPim.FlatCombining.Owner

/-! # Steps of the combiner -/

namespace SmcPim.FlatCombining

open List State Pc

variable {τ Ω κ σ : Type} {combined : Bool} {s s' : State τ Ω κ σ} {slots slots' l xs ys : List τ}
  {holder : Option τ} {a a' : Atomic τ σ (Ω × κ) Bool} {t u c d : τ} {p p' : Pass τ Ω κ}
  {f : Slot τ Ω κ → Slot τ Ω κ} {w : Walk τ} {k : Rest τ} {op : Ω} {v : κ} {r : Bool} {stamp : Int}

/-! ## Requests that stay valid -/

lemma Collected.congr (h : Collected s t l ys) (hv : ∀ u, Valid s' u ↔ Valid s u) :
    Collected s' t l ys :=
  ⟨h.nodup, fun c hc => (hv c).mpr (h.valid c hc), fun hown => h.own ((hv t).mp hown)⟩

lemma Walking.congr (h : Walking combined s slots t w xs ys) (hv : ∀ u, Valid s' u ↔ Valid s u) :
    Walking combined s' slots t w xs ys :=
  { h with collected := h.collected.congr hv }

lemma RestOk.congr (h : RestOk combined s slots t c k) (hv : ∀ u, Valid s' u ↔ Valid s u) :
    RestOk combined s' slots t c k := by
  cases k with
  | walk w =>
    obtain ⟨hc, xs, ys, hw⟩ := h
    exact ⟨(hv c).mpr hc, xs, ys, hw.congr hv⟩
  | list stamp rest => exact Collected.congr h hv

lemma RestOk.valid (h : RestOk combined s slots t c k) : Valid s c := Frame.valid_of_restOk h

lemma PassAt.congr (h : PassAt combined s slots a t p) (hslot : s'.slot = s.slot) :
    PassAt combined s' slots a t p := by
  have hf : Frame s s' slots slots a a t := by
    refine ⟨by rw [hslot], fun c hc => ?_, fun c _ => ?_, fun c _ => by rw [hslot], [], rfl⟩
    · unfold Valid
      rwa [hslot]
    · rw [hslot]
      exact ⟨rfl, rfl, rfl, rfl⟩
  exact hf.passAt h

variable {x y : Slot τ Ω κ} {e e' : Prop} {st : Status (Ω × κ) Bool} {pc : Pc τ Ω κ}

lemma Request.posted (h : Request x e st pc) (hx : x.isRequestValid = true) : Posted x e st := by
  cases pc with
  | idle | writeOp op v | writeReq op v | setValid op v | unlock | readRet | ret r =>
    exact absurd h.1 (by simp [hx])
  | _ => exact h

lemma Request.waiting {st' : Status (Ω × κ) Bool} (h : Request x e st pc)
    (hx : x.isRequestValid = true) (hy : Posted y e' st') : Request y e' st' pc := by
  cases pc with
  | idle | writeOp op v | writeReq op v | setValid op v | unlock | readRet | ret r =>
    exact absurd h.1 (by simp [hx])
  | _ => exact hy

lemma Request.congr
    (h : Request x e st pc) (hvalid : y.isRequestValid = x.isRequestValid) (hop : y.op = x.op)
    (hreq : y.reqAns = x.reqAns) (hret : x.isRequestValid = true ∨ y.returnVal = x.returnVal)
    (he : e' ↔ e) : Request y e' st pc := by
  have hposted : Posted x e st → Posted y e' st := by
    intro hp
    refine ⟨fun hy => ?_, fun hy hne => ?_⟩
    · rcases hret with hx | hret
      · rw [hvalid, hx] at hy
        cases hy
      · rw [hret]
        exact hp.1 (hvalid ▸ hy)
    · rw [hop, hreq]
      exact hp.2 (hvalid ▸ hy) (fun hx => hne (he.mpr hx))
  have hret' : x.isRequestValid = false → y.returnVal = x.returnVal := by
    intro hx
    rcases hret with hv | hret
    · exact absurd hv (by simp [hx])
    · exact hret
  cases pc with
  | idle | writeOp op v => exact ⟨hvalid.trans h.1, h.2⟩
  | writeReq op v => exact ⟨hvalid.trans h.1, h.2.1, hop.trans h.2.2⟩
  | setValid op v => exact ⟨hvalid.trans h.1, h.2.1, hop.trans h.2.2.1, hreq.trans h.2.2.2⟩
  | unlock | readRet => exact ⟨hvalid.trans h.1, by rw [hret' h.1]; exact h.2⟩
  | ret r => exact ⟨hvalid.trans h.1, h.2⟩
  | _ => exact hposted h

/-! ## What one step leaves -/

section
variable (hinv : Inv combined s slots holder a) (ht : s.pc t = .pass p)
include hinv ht

lemma Inv.holder_eq : holder = some t :=
  (hinv.critical t).mp (by rw [ht]; rfl)

lemma Inv.busy_eq : clearing s holder = p.clearing ∧ executed s holder = p.executed := by
  rw [hinv.holder_eq ht]
  unfold clearing executed busy
  simp [ht, combining]

lemma Inv.combine (hpc : ∀ u ≠ t, s'.pc u = s.pc u) (hcrit : (s'.pc t).critical = true)
    (hlock : s'.lock = s.lock) (hchain : Chain (nextOf s') s'.tail (slots'.map some) none)
    (hnodup : slots'.Nodup) (hobject : a'.state = s'.object)
    (hlink : ∀ u, LinkOk (s'.slot u) (u ∈ slots') (clearing s' holder = some u) (s'.pc u))
    (hrequest : ∀ u, Request (s'.slot u) (executed s' holder = some u) (a'.status u) (s'.pc u))
    (hpass : ∀ p', s'.pc t = .pass p' → PassAt combined s' slots' a' t p') :
    Inv combined s' slots' holder a' where
  chain := hchain
  nodup := hnodup
  object := hobject
  lock := hlock.trans hinv.lock
  critical := by
    intro u
    by_cases hu : u = t
    · subst hu
      exact iff_of_true hcrit (hinv.holder_eq ht)
    · rw [hpc u hu]
      exact hinv.critical u
  link := hlink
  request := hrequest
  pass := by
    intro u p' hp'
    by_cases hu : u = t
    · subst hu
      exact hpass p' hp'
    · -- Nobody else has the lock.
      rw [hpc u hu] at hp'
      have heq := (hinv.holder_eq hp').symm.trans (hinv.holder_eq ht)
      exact absurd (Option.some.inj heq) hu

lemma Inv.link_of (hpc : ∀ u ≠ t, s'.pc u = s.pc u)
    (hpct : (s'.pc t).enqueuing = false ∧ (s'.pc t).unlinked = false)
    (hlinked : (s'.slot u).isSlotLinked = (s.slot u).isSlotLinked)
    (hnext : u ∉ slots → (s'.slot u).next = (s.slot u).next) (hmem : u ∈ slots' ↔ u ∈ slots)
    {out : Prop} (hclearing : out ↔ clearing s holder = some u) :
    LinkOk (s'.slot u) (u ∈ slots') out (s'.pc u) := by
  have h := hinv.link u
  rw [hmem, hclearing]
  by_cases hu : u = t
  · subst hu
    rw [ht] at h
    exact h.plain rfl hlinked hpct.1 hpct.2
  · rw [hpc u hu]
    refine ⟨by rw [hlinked]; exact h.linked, h.cut, h.enqueuing, ?_, ?_⟩
    · rw [hlinked]
      exact h.unlinked
    · intro site tl heq
      have henq := h.enqueuing (by rw [heq]; rfl)
      rw [hnext henq.1]
      exact h.cas site tl heq

end

lemma request_of (ht : s.pc t = .pass p) (hpc : ∀ u ≠ t, s'.pc u = s.pc u)
    (hpct : s'.pc t = .pass p') (h : Request x e st (s.pc u)) : Request x e st (s'.pc u) := by
  by_cases hu : u = t
  · subst hu
    rw [ht] at h
    rw [hpct]
    exact h
  · rw [hpc u hu]
    exact h

variable [DecidableEq τ]

lemma clearing_goto (hholder : holder = some t) (s1 : State τ Ω κ σ) (p' : Pass τ Ω κ) :
    clearing (s1.goto t (.pass p')) holder = p'.clearing ∧
      executed (s1.goto t (.pass p')) holder = p'.executed := by
  subst hholder
  unfold clearing executed busy
  simp [combining]

lemma State.write_same {β : Type*} (g : Slot τ Ω κ → β) (hf : ∀ x, g (f x) = g x) (u : τ) :
    g ((s.write c f).slot u) = g (s.slot u) := by
  by_cases hu : u = c
  · subst hu
    rw [write_slot_self, hf]
  · rw [write_slot_ne _ hu]

lemma valid_write (hf : ∀ x, (f x).isRequestValid = x.isRequestValid) (u : τ) :
    Valid (s.write c f) u ↔ Valid s u := by
  unfold Valid
  rw [write_same (·.isRequestValid) hf]

lemma Request.write (h : Request (s.slot u) e st pc)
    (hf : ∀ x, (f x).isRequestValid = x.isRequestValid ∧ (f x).op = x.op ∧ (f x).reqAns = x.reqAns ∧
      (f x).returnVal = x.returnVal) : Request ((s.write c f).slot u) e st pc :=
  h.congr (write_same (·.isRequestValid) (fun x => (hf x).1) u)
    (write_same (·.op) (fun x => (hf x).2.1) u)
    (write_same (·.reqAns) (fun x => (hf x).2.2.1) u)
    (.inr (write_same (·.returnVal) (fun x => (hf x).2.2.2) u)) Iff.rfl

lemma link_pass {mem out : Prop} (henq : (s.pc u).enqueuing = false)
    (hun : (s.pc u).unlinked = true → x.isSlotLinked = false)
    (hlinked : x.isSlotLinked = true ↔ mem ∨ out) (hcut : out → ¬ mem) :
    LinkOk x mem out (((s.write c f).goto t (.pass p')).pc u) := by
  have hpc : ((s.write c f).goto t (.pass p')).pc u = .pass p' ∨
      ((s.write c f).goto t (.pass p')).pc u = s.pc u := by
    by_cases hu : u = t
    · exact .inl (by simp [hu])
    · exact .inr (goto_pc_ne _ hu)
  generalize ((s.write c f).goto t (.pass p')).pc u = pc at hpc
  have henq' : pc.enqueuing = false := by
    rcases hpc with rfl | rfl
    · rfl
    · exact henq
  have hun' : pc.unlinked = true → x.isSlotLinked = false := by
    rcases hpc with rfl | rfl
    · simp [unlinked]
    · exact hun
  exact
    { linked := by simp [hlinked, henq']
      cut := hcut
      enqueuing := fun hc => absurd hc (by simp [henq'])
      unlinked := hun'
      cas := fun site tl hc => absurd henq' (by simp [hc, enqueuing]) }

section
variable (hinv : Inv combined s slots holder a) (ht : s.pc t = .pass p)
include hinv ht

lemma Inv.combineWrite
    (hchain : Chain (nextOf (s.write c f)) s.tail (slots'.map some) none) (hnodup : slots'.Nodup)
    (hlink : ∀ u, LinkOk ((s.write c f).slot u) (u ∈ slots') (p'.clearing = some u)
      (((s.write c f).goto t (.pass p')).pc u))
    (hrequest : ∀ u, Request ((s.write c f).slot u) (p'.executed = some u) (a.status u) (s.pc u))
    (hpass : PassAt combined (s.write c f) slots' a t p') :
    Inv combined ((s.write c f).goto t (.pass p')) slots' holder a := by
  obtain ⟨hclearing, hexecuted⟩ := clearing_goto (hinv.holder_eq ht) (s.write c f) p'
  have hpc : ∀ u ≠ t, ((s.write c f).goto t (.pass p')).pc u = s.pc u :=
    fun u hu => goto_pc_ne _ hu
  refine hinv.combine ht hpc (by simp [Pc.critical]) rfl hchain hnodup hinv.object ?_ ?_ ?_
  · rw [hclearing]
    exact hlink
  · intro u
    rw [hexecuted]
    exact request_of ht hpc (goto_pc_self ..) (hrequest u)
  · intro q hq
    rw [goto_pc_self] at hq
    obtain rfl := pass.inj hq
    exact hpass.congr rfl

lemma Inv.link_write (hlinked : ((s.write c f).slot u).isSlotLinked = (s.slot u).isSlotLinked)
    (hnext : u ∉ slots → ((s.write c f).slot u).next = (s.slot u).next)
    (hmem : u ∈ slots' ↔ u ∈ slots) (hclear : p'.clearing = some u ↔ p.clearing = some u) :
    LinkOk ((s.write c f).slot u) (u ∈ slots') (p'.clearing = some u)
      (((s.write c f).goto t (.pass p')).pc u) := by
  have hpc : ∀ u ≠ t, ((s.write c f).goto t (.pass p')).pc u = s.pc u := fun u hu =>
    goto_pc_ne _ hu
  refine hinv.link_of ht hpc (by simp [enqueuing, unlinked]) hlinked hnext hmem ?_
  rw [(hinv.busy_eq ht).1, hclear]

lemma Inv.passWrite (c : τ) (f : Slot τ Ω κ → Slot τ Ω κ)
    (hf : ∀ x, (f x).isRequestValid = x.isRequestValid ∧ (f x).isSlotLinked = x.isSlotLinked ∧
      (f x).next = x.next ∧ (f x).op = x.op ∧ (f x).reqAns = x.reqAns)
    (hret : Valid s c ∨ ∀ x, (f x).returnVal = x.returnVal)
    (hclear : p.clearing = none ∧ p'.clearing = none) (hexec : p'.executed = p.executed)
    (hpass : PassAt combined (s.write c f) slots a t p') :
    Inv combined ((s.write c f).goto t (.pass p')) slots holder a := by
  have hnext := write_same (s := s) (c := c) (·.next) fun x => (hf x).2.2.1
  refine hinv.combineWrite ht (chain_congr hinv.chain fun u _ => hnext u) hinv.nodup ?_ ?_ hpass
  · intro u
    exact hinv.link_write ht (write_same (·.isSlotLinked) (fun x => (hf x).2.1) u)
      (fun _ => hnext u) Iff.rfl (by rw [hclear.1, hclear.2])
  · intro u
    have hreq := hinv.request u
    rw [(hinv.busy_eq ht).2] at hreq
    by_cases hu : u = c
    · subst hu
      obtain ⟨h1, -, -, h4, h5⟩ := hf (s.slot u)
      rw [write_slot_self]
      exact hreq.congr h1 h4 h5 (hret.imp_right fun h => h _) (by rw [hexec])
    · rw [write_slot_ne _ hu]
      exact hreq.congr rfl rfl rfl (.inr rfl) (by rw [hexec])

lemma Inv.passRead
    (hclear : p.clearing = none ∧ p'.clearing = none) (hexec : p'.executed = p.executed)
    (hpass : PassAt combined s slots a t p') : Inv combined (s.goto t (.pass p')) slots holder a := by
  have h := hinv.passWrite ht t (fun x => x) (fun x => ⟨rfl, rfl, rfl, rfl, rfl⟩)
    (.inr fun _ => rfl) hclear hexec (by rwa [write_id])
  rwa [write_id] at h

lemma Inv.passEnd (hclear : p.clearing = none) (hexec : p.executed = none) (hown : ¬ Valid s t) :
    Inv combined (s.goto t .unlock) slots holder a := by
  obtain ⟨hclearing, hexecuted⟩ := hinv.busy_eq ht
  have hpc : ∀ u ≠ t, (s.goto t .unlock).pc u = s.pc u := fun u hu => goto_pc_ne _ hu
  have hbusy : busy (s.goto t .unlock) holder = none := by
    rw [hinv.holder_eq ht]
    simp [busy, combining]
  have hclearing' : clearing (s.goto t .unlock) holder = none := by
    unfold clearing
    rw [hbusy]
    rfl
  have hexecuted' : executed (s.goto t .unlock) holder = none := by
    unfold executed
    rw [hbusy]
    rfl
  refine hinv.combine ht hpc (by simp [Pc.critical]) rfl hinv.chain hinv.nodup hinv.object ?_ ?_ ?_
  · intro u
    refine hinv.link_of ht hpc (by simp [Pc.enqueuing, Pc.unlinked]) rfl (fun _ => rfl) Iff.rfl ?_
    rw [hclearing', hclearing, hclear]
  · intro u
    have hreq := hinv.request u
    rw [hexecuted, hexec] at hreq
    rw [hexecuted']
    by_cases hu : u = t
    · subst hu
      rw [ht] at hreq
      rw [goto_pc_self]
      have hv := Bool.eq_false_of_not_eq_true hown
      exact ⟨hv, hreq.1 hv⟩
    · rw [hpc u hu]
      exact hreq
  · intro q hq
    exact absurd hq (by simp)

end

section
variable (hinv : Inv combined s slots holder a)
include hinv

lemma Inv.cutWrite {o : Option τ} {q : τ}
    (ht : s.pc t = .pass (.cutWrite w c o)) (hq : w.prev = some q) :
    ∃ slots', Inv combined
      ((s.write q fun x => { x with next := o }).goto t (.pass (.cutFlag w c))) slots' holder a := by
  obtain ⟨⟨xs, ys, hw, hne, zs, q', rfl, hq'⟩, hnext⟩ := hinv.pass t _ ht
  obtain rfl : q' = q := Option.some.inj (hq'.symm.trans hq)
  obtain rfl := hw.split
  have hnodup := hinv.nodup
  rw [nodup_append] at hnodup
  obtain ⟨-, hys, hdisj⟩ := hnodup
  have hcq : c ≠ q' := fun hcq => hdisj q' (by simp) c mem_cons_self hcq.symm
  refine ⟨zs ++ [q'] ++ ys, hinv.combineWrite ht ?_ ?_ ?_ ?_ ?_⟩
  · have hchain := hinv.chain
    simp only [map_append, map_cons, append_assoc, cons_append, nil_append] at hchain ⊢
    have hslots := hinv.nodup.map (Option.some_injective _)
    simp only [map_append, map_cons, append_assoc, cons_append, nil_append] at hslots
    refine hchain.remove hslots ?_ ?_
    · change ((s.write q' fun x => { x with next := o }).slot q').next = (s.slot c).next
      rw [write_slot_self, hnext]
    · rintro (_ | z) - hz
      · rfl
      · exact congrArg Slot.next (write_slot_ne _ fun heq => hz (congrArg some heq))
  · exact hinv.nodup.sublist ((Sublist.refl _).append (sublist_cons_self c ys))
  · intro u
    by_cases hu : u = c
    · -- The slot that is taken out keeps its mark for now.
      subst hu
      have hcnot : u ∉ zs ++ [q'] ++ ys := by
        intro hmem
        rcases mem_append.mp hmem with hmem | hmem
        · exact hdisj u hmem u mem_cons_self rfl
        · exact (nodup_cons.mp hys).1 hmem
      have hlink := hinv.link u
      have hlinked := hlink.linked.mpr (.inl (by simp))
      have henq : (s.pc u).enqueuing = false := by
        by_contra henq
        exact (hlink.enqueuing (by simpa using henq)).1 (by simp)
      rw [write_slot_ne _ hcq]
      exact link_pass henq hlink.unlinked (iff_of_true hlinked (.inr rfl)) fun _ => hcnot
    · refine hinv.link_write ht ?_ ?_ ?_ ?_
      · apply write_same (·.isSlotLinked)
        exact fun _ => rfl
      · intro hnot
        rw [write_slot_ne]
        rintro rfl
        exact hnot (by simp)
      · simp [hu]
      · simp [Pass.clearing, Ne.symm hu]
  · intro u
    have hreq := hinv.request u
    rw [(hinv.busy_eq ht).2] at hreq
    exact hreq.write fun _ => ⟨rfl, rfl, rfl, rfl⟩
  · have hvalid := valid_write (s := s) (c := q') (f := fun x => { x with next := o }) fun _ => rfl
    have hw' := hw.congr hvalid
    refine ⟨zs ++ [q'], ys, ⟨rfl, hw'.requests, ⟨hw'.collected.nodup, hw'.collected.valid, ?_⟩,
      hw'.single⟩, zs, q', rfl, hq⟩
    intro hv
    exact (hw'.collected.own hv).imp_right fun hmem =>
      (mem_cons.mp hmem).resolve_left (hne ((hvalid t).mp hv))

lemma Inv.cutFlag (ht : s.pc t = .pass (.cutFlag w c)) :
    Inv combined ((s.write c fun x => { x with isSlotLinked := false }).goto t
      (.pass (.cutAdvance w))) slots holder a := by
  obtain ⟨xs, ys, hw, hprev⟩ := hinv.pass t _ ht
  have hnext := write_same (s := s) (c := c) (f := fun x => { x with isSlotLinked := false })
    (·.next) fun _ => rfl
  refine hinv.combineWrite ht (chain_congr hinv.chain fun u _ => hnext u) hinv.nodup ?_ ?_
    ⟨xs, ys, hw.congr (valid_write fun _ => rfl), hprev⟩
  · intro u
    by_cases hu : u = c
    · subst hu
      have hlink := hinv.link u
      have hcut : clearing s holder = some u := (hinv.busy_eq ht).1
      have henq : (s.pc u).enqueuing = false := by
        by_contra henq
        exact (hlink.enqueuing (by simpa using henq)).2 hcut
      rw [write_slot_self]
      exact link_pass henq (fun _ => rfl) (by simp [hlink.cut hcut, Pass.clearing])
        (by simp [Pass.clearing])
    · exact hinv.link_write ht (by rw [write_slot_ne _ hu]) (fun _ => hnext u) Iff.rfl
        (by simp [Pass.clearing, Ne.symm hu])
  · intro u
    have hreq := hinv.request u
    rw [(hinv.busy_eq ht).2] at hreq
    exact hreq.write fun _ => ⟨rfl, rfl, rfl, rfl⟩

lemma Inv.execute (O : Sequential σ (Ω × κ) Bool) (ht : s.pc t = .pass (.execute k c op v)) :
    a.status c = .pending (op, v) ∧
    Inv combined (goto { s with object := O.after s.object (op, v) } t
        (.pass (.writeTrue k c (O.answer s.object (op, v))))) slots holder
      ⟨O.after a.state (op, v),
        Function.update a.status c (.answered (O.answer a.state (op, v)))⟩ := by
  obtain ⟨hr, hop, hv, hret⟩ := hinv.pass t _ ht
  obtain ⟨hclearing, hexecuted⟩ := hinv.busy_eq ht
  obtain ⟨hclearing', hexecuted'⟩ := clearing_goto (hinv.holder_eq ht)
    { s with object := O.after s.object (op, v) } (.writeTrue k c (O.answer s.object (op, v)))
  have hstatus : a.status c = .pending (op, v) := by
    have hposted := (hinv.request c).posted hr.valid
    rw [hop, hv]
    exact hposted.2 hr.valid (by simp [hexecuted, Pass.executed])
  have hpc : ∀ u ≠ t, (goto { s with object := O.after s.object (op, v) } t
      (.pass (.writeTrue k c (O.answer s.object (op, v))))).pc u = s.pc u :=
    fun u hu => goto_pc_ne _ hu
  refine ⟨hstatus, hinv.combine ht hpc (by simp [Pc.critical]) rfl hinv.chain hinv.nodup ?_ ?_ ?_ ?_⟩
  · rw [hinv.object]
    rfl
  · intro u
    refine hinv.link_of ht hpc (by simp [enqueuing, unlinked]) rfl (fun _ => rfl) Iff.rfl ?_
    rw [hclearing', hclearing]
    rfl
  · intro u
    refine request_of ht hpc (goto_pc_self ..) ?_
    rw [hexecuted']
    by_cases hu : u = c
    · subst hu
      refine (hinv.request u).waiting hr.valid ⟨fun hx => ?_, fun _ hne => absurd rfl hne⟩
      exact absurd hr.valid (by simp [Valid, show (s.slot u).isRequestValid = false from hx])
    · simp only [Function.update_of_ne hu]
      refine (hinv.request u).congr rfl rfl rfl (.inr rfl) ?_
      rw [hexecuted]
      simp [Pass.executed, Ne.symm hu]
  · intro q hq
    rw [goto_pc_self] at hq
    obtain rfl := pass.inj hq
    refine ⟨hr.congr fun _ => Iff.rfl, ?_, hret⟩
    rw [← hinv.object]
    exact Function.update_self ..

lemma Inv.clearValid (ht : s.pc t = .pass (.clearValid k c)) :
    Inv combined ((s.write c fun x => { x with isRequestValid := false }).goto t
      (.pass (k.next c))) slots holder a := by
  obtain ⟨hr, hstatus⟩ := hinv.pass t _ ht
  have hquiet : (k.next c : Pass τ Ω κ).clearing = none ∧ (k.next c : Pass τ Ω κ).executed = none := by
    cases k <;> exact ⟨rfl, rfl⟩
  have hnext := write_same (s := s) (c := c) (f := fun x => { x with isRequestValid := false })
    (·.next) fun _ => rfl
  refine hinv.combineWrite ht (chain_congr hinv.chain fun u _ => hnext u) hinv.nodup ?_ ?_ ?_
  · intro u
    refine hinv.link_write ht ?_ (fun _ => hnext u) Iff.rfl (by rw [hquiet.1]; rfl)
    apply write_same (·.isSlotLinked)
    exact fun _ => rfl
  · intro u
    rw [hquiet.2]
    by_cases hu : u = c
    · subst hu
      rw [write_slot_self]
      exact (hinv.request u).waiting hr.valid ⟨fun _ => hstatus, by simp⟩
    · rw [write_slot_ne _ hu]
      refine (hinv.request u).congr rfl rfl rfl (.inr rfl) ?_
      rw [(hinv.busy_eq ht).2]
      simp [Pass.executed, Ne.symm hu]
  · generalize hs' : (s.write c fun x => { x with isRequestValid := false }) = s'
    have hslot : ∀ u ≠ c, s'.slot u = s.slot u := fun u hu => by rw [← hs', write_slot_ne _ hu]
    have hvalid : ∀ u, Valid s' u → u ≠ c ∧ Valid s u := by
      intro u hu
      have hne : u ≠ c := by
        rintro rfl
        exact absurd hu (by simp [Valid, ← hs'])
      refine ⟨hne, ?_⟩
      unfold Valid at hu ⊢
      rwa [hslot u hne] at hu
    have hstill : ∀ u ≠ c, Valid s u → Valid s' u := by
      intro u hu hv
      unfold Valid
      rwa [hslot u hu]
    cases k with
    | walk w =>
      obtain ⟨-, xs, ys, hw⟩ := hr
      have hnodup := hinv.nodup
      rw [hw.split, nodup_append] at hnodup
      refine ⟨xs, ys, by rw [hw.split]; simp, fun r hr => ?_, ⟨hw.collected.nodup, ?_, ?_⟩, hw.single⟩
      · exact mem_append_left _ (hw.requests r hr)
      · intro r hr
        apply hstill r _ (hw.collected.valid r hr)
        rintro rfl
        exact hnodup.2.2 r (hw.requests r hr) r mem_cons_self rfl
      · intro hv
        obtain ⟨hne, hv⟩ := hvalid t hv
        exact (hw.collected.own hv).imp_right fun hmem => (mem_cons.mp hmem).resolve_left hne
    | list stamp rest =>
      obtain ⟨hnodup, hall, hown⟩ := hr
      obtain ⟨hnot, hnodup⟩ := nodup_cons.mp hnodup
      refine ⟨hnodup, fun r hr => ?_, fun hv => ?_⟩
      · apply hstill r _ (hall r (mem_cons_of_mem _ hr))
        rintro rfl
        exact hnot hr
      · obtain ⟨hne, hv⟩ := hvalid t hv
        exact (hown hv).imp_left fun hmem => (mem_cons.mp hmem).resolve_left hne

end

end SmcPim.FlatCombining
