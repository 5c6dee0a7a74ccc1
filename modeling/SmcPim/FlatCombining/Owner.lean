import SmcPim.FlatCombining.Invariant

/-! # Steps of a thread outside of the pass -/

namespace SmcPim.FlatCombining

open Function Option State Pc

variable {τ Ω κ σ : Type}

variable {combined : Bool} {s s' : State τ Ω κ σ} {slots slots' : List τ} {holder holder' : Option τ}
  {a a' : Atomic τ σ (Ω × κ) Bool} {t u : τ} {pc' : Pc τ Ω κ} {f : Slot τ Ω κ → Slot τ Ω κ}
  {st' : Status (Ω × κ) Bool}

structure OwnStep (s s' : State τ Ω κ σ) (slots slots' : List τ) (a a' : Atomic τ σ (Ω × κ) Bool)
    (t : τ) : Prop where
  slot : ∀ u ≠ t, s'.slot u = s.slot u
  pc : ∀ u ≠ t, s'.pc u = s.pc u
  object : s'.object = s.object
  state : a'.state = a.state
  status : ∀ u ≠ t, a'.status u = a.status u
  mem : ∀ u ≠ t, u ∈ slots' ↔ u ∈ slots
  grow : ∃ us, slots' = us ++ slots
  valid : Valid s t → Valid s' t ∧ (s'.slot t).op = (s.slot t).op ∧
    (s'.slot t).reqAns = (s.slot t).reqAns ∧ (s'.slot t).returnVal = (s.slot t).returnVal ∧
    a'.status t = a.status t
  next : t ∈ slots → (s'.slot t).next = (s.slot t).next

lemma OwnStep.frame (h : OwnStep s s' slots slots' a a' t) (hne : u ≠ t) :
    Frame s s' slots slots' a a' u := by
  have hsame : ∀ c, c = t ∨ s'.slot c = s.slot c ∧ a'.status c = a.status c := fun c => by
    by_cases hc : c = t
    · exact .inl hc
    · exact .inr ⟨h.slot c hc, h.status c hc⟩
  refine ⟨h.slot u hne, fun c hv => ?_, fun c hv => ?_, fun c hc => ?_, h.grow⟩
  · rcases hsame c with rfl | ⟨hslot, -⟩
    · exact (h.valid hv).1
    · unfold Valid
      rw [hslot]
      exact hv
  · rcases hsame c with rfl | ⟨hslot, hstatus⟩
    · exact (h.valid hv).2
    · rw [hslot]
      exact ⟨rfl, rfl, rfl, hstatus⟩
  · rcases hsame c with rfl | ⟨hslot, -⟩
    · exact h.next hc
    · rw [hslot]

lemma Inv.own (hinv : Inv combined s slots holder a) (hs : OwnStep s s' slots slots' a a' t)
    (hchain : Chain (nextOf s') s'.tail (slots'.map some) none) (hnodup : slots'.Nodup)
    (hlock : s'.lock = holder'.isSome)
    (hcritical : ∀ u, (s'.pc u).critical = true ↔ holder' = some u)
    (hclearing : clearing s' holder' = clearing s holder)
    (hexecuted : executed s' holder' = executed s holder)
    (hlink : LinkOk (s'.slot t) (t ∈ slots') (clearing s holder = some t) (s'.pc t))
    (hrequest : Request (s'.slot t) (executed s holder = some t) (a'.status t) (s'.pc t))
    (hpass : ∀ p, s'.pc t = .pass p → PassAt combined s' slots' a' t p) :
    Inv combined s' slots' holder' a' where
  chain := hchain
  nodup := hnodup
  object := hs.state.trans (hinv.object.trans hs.object.symm)
  lock := hlock
  critical := hcritical
  link := by
    intro u
    rw [hclearing]
    by_cases hu : u = t
    · subst hu
      exact hlink
    · rw [hs.slot u hu, hs.pc u hu, hs.mem u hu]
      exact hinv.link u
  request := by
    intro u
    rw [hexecuted]
    by_cases hu : u = t
    · subst hu
      exact hrequest
    · rw [hs.slot u hu, hs.pc u hu, hs.status u hu]
      exact hinv.request u
  pass := by
    intro u p hp
    by_cases hu : u = t
    · subst hu
      exact hpass p hp
    · rw [hs.pc u hu] at hp
      exact (hs.frame hu).passAt (hinv.pass u p hp)

lemma Inv.nobusy (hinv : Inv combined s slots holder a) {pc : Pc τ Ω κ} (hpc : s.pc t = pc)
    (ht : pc.combining = none) (hcrit : pc.critical = true) : clearing s holder = none ∧ executed s holder = none := by
  subst hpc
  rw [(hinv.critical t).mp hcrit]
  unfold clearing executed busy
  simp [ht]

lemma chain_congr (h : Chain (nextOf s) s.tail (slots.map some) none)
    (hnext : ∀ c ∈ slots, (s'.slot c).next = (s.slot c).next) :
    Chain (nextOf s') s.tail (slots.map some) none := by
  refine h.congr fun o ho => ?_
  obtain ⟨c, hc, rfl⟩ := List.mem_map.mp ho
  exact hnext c hc

/-! ## The marks of a slot -/

namespace LinkOk

variable {x y : Slot τ Ω κ} {mem out : Prop} {pc : Pc τ Ω κ}

lemma same (h : LinkOk x mem out pc) (henq : pc'.enqueuing = pc.enqueuing)
    (hy : y.isSlotLinked = x.isSlotLinked) (hun : pc'.unlinked = true → x.isSlotLinked = false)
    (hcas : ∀ site tl, pc' = .enqCas site tl → y.next = tl) : LinkOk y mem out pc' where
  linked := by rw [hy, h.linked, henq]
  cut := h.cut
  enqueuing := fun hc => h.enqueuing (henq ▸ hc)
  unlinked := fun hc => hy.trans (hun hc)
  cas := hcas

lemma plain (h : LinkOk x mem out pc) (hpc : pc.enqueuing = false)
    (hy : y.isSlotLinked = x.isSlotLinked) (henq : pc'.enqueuing = false)
    (hun : pc'.unlinked = false) : LinkOk y mem out pc' := by
  refine h.same (henq.trans hpc.symm) hy (by simp [hun]) ?_
  rintro site tl rfl
  cases henq

lemma begun (h : LinkOk x mem out pc) (hpc : pc.unlinked = true) (hy : y.isSlotLinked = true)
    (henq : pc'.enqueuing = true) (hun : pc'.unlinked = false)
    (hcas : ∀ site tl, pc' = .enqCas site tl → y.next = tl) : LinkOk y mem out pc' where
  linked := by simp [hy, henq]
  cut := h.cut
  enqueuing := by
    intro _
    have hx := h.unlinked hpc
    have hno := mt h.linked.mpr (by simp [hx])
    exact ⟨fun hm => hno (.inl hm), fun hc => hno (.inr (.inl hc))⟩
  unlinked := fun hc => absurd hc (by simp [hun])
  cas := hcas

end LinkOk

lemma Site.next_enqueuing (site : Site) : (site.next : Pc τ Ω κ).enqueuing = false := by
  cases site <;> rfl

lemma Site.next_unlinked (site : Site) : (site.next : Pc τ Ω κ).unlinked = false := by
  cases site <;> rfl

lemma Site.next_combining (site : Site) : (site.next : Pc τ Ω κ).combining = none ∨
    (site.next : Pc τ Ω κ).combining = some .readStamp := by
  cases site
  · exact .inl rfl
  · exact .inr rfl
  · exact .inl rfl

lemma Site.next_critical (site : Site) :
    (site.next : Pc τ Ω κ).critical = (checkLinked site : Pc τ Ω κ).critical := by
  cases site <;> rfl

lemma Site.next_locked {site : Site} (h : (site.next : Pc τ Ω κ).combining = some .readStamp) :
    (checkLinked site : Pc τ Ω κ).critical = true := by
  cases site
  · exact absurd h (by simp [Site.next, combining])
  · rfl
  · exact absurd h (by simp [Site.next, combining])

lemma Site.next_request {site : Site} {x : Slot τ Ω κ} {executed : Prop} (h : Posted x executed st') :
    Request x executed st' (site.next : Pc τ Ω κ) := by
  cases site <;> exact h

variable [DecidableEq τ]

namespace State

variable (s : State τ Ω κ σ) (t u : τ) (pc : Pc τ Ω κ) (f : Slot τ Ω κ → Slot τ Ω κ)

@[simp] lemma goto_slot : (s.goto t pc).slot = s.slot := rfl
@[simp] lemma goto_pc_self : (s.goto t pc).pc t = pc := update_self ..
@[simp] lemma write_pc : (s.write t f).pc = s.pc := rfl
@[simp] lemma write_slot_self : (s.write t f).slot t = f (s.slot t) := update_self ..

variable {s t u}

@[simp] lemma goto_pc_ne (h : u ≠ t) : (s.goto t pc).pc u = s.pc u := update_of_ne h ..

@[simp] lemma write_slot_ne (h : u ≠ t) : (s.write t f).slot u = s.slot u :=
  update_of_ne h ..

lemma write_id : s.write t (fun x => x) = s := by
  unfold write
  rw [update_eq_self]

end State

lemma busy_goto (holder : Option τ) (s1 : State τ Ω κ σ) (hpc : s1.pc = s.pc)
    (ht : (s.pc t).combining = none)
    (hcomb : pc'.combining = none ∨ pc'.combining = some .readStamp) :
    clearing (s1.goto t pc') holder = clearing s holder ∧
      executed (s1.goto t pc') holder = executed s holder := by
  unfold clearing executed busy
  cases holder with
  | none => exact ⟨rfl, rfl⟩
  | some v =>
    by_cases hv : v = t
    · subst hv
      simp only [bind_some, goto_pc_self, ht]
      rcases hcomb with hcomb | hcomb
      · simp [hcomb]
      · simp [hcomb, Pass.clearing, Pass.executed]
    · simp [goto_pc_ne _ hv, hpc]

lemma critical_goto (hinv : Inv combined s slots holder a)
    (hcrit : pc'.critical = (s.pc t).critical) {s1 : State τ Ω κ σ} (hpc : s1.pc = s.pc) (u : τ) :
    ((s1.goto t pc').pc u).critical = true ↔ holder = some u := by
  by_cases hu : u = t
  · subst hu
    rw [goto_pc_self, hcrit]
    exact hinv.critical u
  · rw [goto_pc_ne _ hu, hpc]
    exact hinv.critical u

/-! ## Reads, and writes to the own slot -/

lemma update_status (a : Atomic τ σ (Ω × κ) Bool) (t : τ) :
    (⟨a.state, update a.status t (a.status t)⟩ : Atomic τ σ (Ω × κ) Bool) = a := by
  rw [update_eq_self]

section
variable {pc : Pc τ Ω κ} (hinv : Inv combined s slots holder a) (hpc : s.pc t = pc)
  (ht : pc.combining = none)
include hinv hpc ht

lemma Inv.write (st' : Status (Ω × κ) Bool)
    (hcomb : pc'.combining = none ∨ pc'.combining = some .readStamp)
    (hcrit : pc'.critical = pc.critical)
    (hvalid : Valid s t → (f (s.slot t)).isRequestValid = true ∧ (f (s.slot t)).op = (s.slot t).op ∧
      (f (s.slot t)).reqAns = (s.slot t).reqAns ∧ (f (s.slot t)).returnVal = (s.slot t).returnVal ∧
      st' = a.status t)
    (hnext : t ∈ slots → (f (s.slot t)).next = (s.slot t).next)
    (hlink : LinkOk (f (s.slot t)) (t ∈ slots) (clearing s holder = some t) pc')
    (hrequest : Request (f (s.slot t)) (executed s holder = some t) st' pc')
    (hpass : pc'.combining = some .readStamp → (f (s.slot t)).isRequestValid = true → t ∈ slots) :
    Inv combined ((s.write t f).goto t pc') slots holder ⟨a.state, update a.status t st'⟩ := by
  subst hpc
  have hstep : OwnStep s ((s.write t f).goto t pc') slots slots a
      ⟨a.state, update a.status t st'⟩ t :=
    { slot := fun u hu => by simp [hu]
      pc := fun u hu => by simp [hu]
      object := rfl
      state := rfl
      status := fun u hu => update_of_ne hu ..
      mem := fun _ _ => Iff.rfl
      grow := ⟨[], rfl⟩
      valid := by
        intro hv
        unfold Valid
        simp only [goto_slot, write_slot_self, update_self]
        exact hvalid hv
      next := by
        intro hmem
        simp only [goto_slot, write_slot_self]
        exact hnext hmem }
  obtain ⟨hclearing, hexecuted⟩ := busy_goto holder (s.write t f) rfl ht hcomb
  refine hinv.own hstep ?_ hinv.nodup hinv.lock (critical_goto hinv hcrit rfl) hclearing hexecuted
    ?_ ?_ ?_
  · refine chain_congr (s := s) hinv.chain fun c hc => ?_
    by_cases hct : c = t
    · subst hct
      exact hstep.next hc
    · rw [hstep.slot c hct]
  · simpa using hlink
  · simpa using hrequest
  · intro p hp
    rw [goto_pc_self] at hp
    rcases hcomb with hcomb | hcomb
    · rw [hp] at hcomb
      exact absurd hcomb (by simp [combining])
    · have hp' := hcomb
      rw [hp] at hp'
      obtain rfl := some.inj hp'
      intro hv
      apply hpass hcomb
      simpa [Valid] using hv

lemma Inv.move (st' : Status (Ω × κ) Bool)
    (hcomb : pc'.combining = none ∨ pc'.combining = some .readStamp)
    (hcrit : pc'.critical = pc.critical) (hvalid : Valid s t → st' = a.status t)
    (hlink : LinkOk (s.slot t) (t ∈ slots) (clearing s holder = some t) pc')
    (hrequest : Request (s.slot t) (executed s holder = some t) st' pc')
    (hpass : pc'.combining = some .readStamp → Valid s t → t ∈ slots) :
    Inv combined (s.goto t pc') slots holder ⟨a.state, update a.status t st'⟩ := by
  have h := hinv.write (f := fun x => x) hpc ht st' hcomb hcrit
    (fun hv => ⟨hv, rfl, rfl, rfl, hvalid hv⟩) (fun _ => rfl) hlink hrequest hpass
  rwa [write_id] at h

lemma Inv.read (hcomb : pc'.combining = none ∨ pc'.combining = some .readStamp)
    (hcrit : pc'.critical = pc.critical)
    (hlink : LinkOk (s.slot t) (t ∈ slots) (clearing s holder = some t) pc')
    (hrequest : Request (s.slot t) (executed s holder = some t) (a.status t) pc')
    (hpass : pc'.combining = some .readStamp → Valid s t → t ∈ slots) :
    Inv combined (s.goto t pc') slots holder a := by
  have h := hinv.move hpc ht (a.status t) hcomb hcrit (fun _ => rfl) hlink hrequest hpass
  rwa [update_status] at h

lemma Inv.put (hcomb : pc'.combining = none) (hcrit : pc'.critical = pc.critical)
    (hvalid : Valid s t → (f (s.slot t)).isRequestValid = true ∧ (f (s.slot t)).op = (s.slot t).op ∧
      (f (s.slot t)).reqAns = (s.slot t).reqAns ∧ (f (s.slot t)).returnVal = (s.slot t).returnVal)
    (hnext : t ∈ slots → (f (s.slot t)).next = (s.slot t).next)
    (hlink : LinkOk (f (s.slot t)) (t ∈ slots) (clearing s holder = some t) pc')
    (hrequest : Request (f (s.slot t)) (executed s holder = some t) (a.status t) pc') :
    Inv combined ((s.write t f).goto t pc') slots holder a := by
  have h := hinv.write (f := f) hpc ht (a.status t) (.inl hcomb) hcrit (fun hv => ?_) hnext hlink
    hrequest (fun hc => absurd hc (by simp [hcomb]))
  · rwa [update_status] at h
  · obtain ⟨h1, h2, h3, h4⟩ := hvalid hv
    exact ⟨h1, h2, h3, h4, rfl⟩

lemma Inv.goOn (henq : pc.enqueuing = false) (hcomb : pc'.combining = none)
    (hcrit : pc'.critical = pc.critical) (henq' : pc'.enqueuing = false) (hun' : pc'.unlinked = false)
    (hrequest : Request (s.slot t) (executed s holder = some t) (a.status t) pc') :
    ∃ slots' holder', Inv combined (s.goto t pc') slots' holder' a := by
  have hlink := hinv.link t
  rw [hpc] at hlink
  exact ⟨slots, holder, hinv.read hpc ht (.inl hcomb) hcrit (hlink.plain henq rfl henq' hun') hrequest
    fun hc => absurd hc (by simp [hcomb])⟩

end

section
variable {O : Sequential σ (Ω × κ) Bool} {sorted : List τ} {site : Site} {tl : Option τ}

lemma Inv.enqCas (hinv : Inv combined s slots holder a) (ht : s.pc t = .enqCas site tl)
    (htl : s.tail = tl) :
    Inv combined (goto { s with tail := some t } t site.next) (t :: slots) holder a := by
  have hlink := hinv.link t
  have hreq := hinv.request t
  rw [ht] at hlink hreq
  obtain ⟨hmem, hcut⟩ := hlink.enqueuing rfl
  have hnext := hlink.cas site tl rfl
  have henq : (site.next : Pc τ Ω κ).enqueuing = false := site.next_enqueuing
  have hun : (site.next : Pc τ Ω κ).unlinked = false := site.next_unlinked
  have hcrit : (site.next : Pc τ Ω κ).critical = (s.pc t).critical := by
    rw [ht]
    exact site.next_critical
  have hstep : OwnStep s (goto { s with tail := some t } t site.next) slots (t :: slots) a a t :=
    { slot := fun _ _ => rfl
      pc := fun u hu => goto_pc_ne _ hu
      object := rfl
      state := rfl
      status := fun _ _ => rfl
      mem := fun u hu => by simp [hu]
      grow := ⟨[t], rfl⟩
      valid := fun hv => ⟨hv, rfl, rfl, rfl, rfl⟩
      next := fun _ => rfl }
  obtain ⟨hclearing, hexecuted⟩ := busy_goto (s := s) (t := t) holder
    { s with tail := some t } rfl (by rw [ht]; rfl) site.next_combining
  refine hinv.own hstep ?_ (List.nodup_cons.mpr ⟨hmem, hinv.nodup⟩) hinv.lock
    (critical_goto hinv hcrit rfl) hclearing hexecuted ?_ ?_ ?_
  · have hchain := hinv.chain
    rw [htl, ← hnext] at hchain
    exact Chain.cons (a := some t) hchain
  · rw [goto_pc_self]
    exact
      { linked := iff_of_true (hlink.linked.mpr (.inr (.inr rfl))) (.inl List.mem_cons_self)
        cut := fun hc => absurd hc hcut
        enqueuing := fun hc => absurd hc (by simp [henq])
        unlinked := fun hc => absurd hc (by simp [hun])
        cas := by
          intro site' tl' hc
          rw [hc] at henq
          exact absurd henq (by simp [enqueuing]) }
  · rw [goto_pc_self]
    exact Site.next_request hreq
  · intro p hp
    rw [goto_pc_self] at hp
    rcases site.next_combining (τ := τ) (Ω := Ω) (κ := κ) with hcomb | hcomb
    · rw [hp] at hcomb
      exact absurd hcomb (by simp [combining])
    · rw [hp] at hcomb
      obtain rfl := some.inj hcomb
      exact fun _ => List.mem_cons_self

lemma Inv.relock (hinv : Inv combined s slots holder a) (hcomb : pc'.combining = none) {b : Bool}
    (hb : b = holder'.isSome) (hself : pc'.critical = true ↔ holder' = some t)
    (hnobusy : clearing s holder = none ∧ executed s holder = none)
    (hholder : ∀ u, holder = some u → u = t) (hholder' : ∀ u, holder' = some u → u = t)
    (hlink : LinkOk (s.slot t) (t ∈ slots) (clearing s holder = some t) pc')
    (hrequest : Request (s.slot t) (executed s holder = some t) (a.status t) pc') :
    Inv combined (goto { s with lock := b } t pc') slots holder' a := by
  have hcritical : ∀ u, ((goto { s with lock := b } t pc').pc u).critical = true ↔
      holder' = some u := by
    intro u
    by_cases hu : u = t
    · rw [hu, goto_pc_self]
      exact hself
    · rw [goto_pc_ne _ hu]
      exact iff_of_false (fun h => hu (hholder u ((hinv.critical u).mp h))) fun h => hu (hholder' u h)
  have hbusy : busy (goto { s with lock := b } t pc') holder' = none := by
    cases hh : holder' with
    | none => rfl
    | some u =>
      obtain rfl := hholder' u hh
      simp [busy, hcomb]
  have hstep : OwnStep s (goto { s with lock := b } t pc') slots slots a a t :=
    { slot := fun _ _ => rfl
      pc := fun u hu => goto_pc_ne _ hu
      object := rfl
      state := rfl
      status := fun _ _ => rfl
      mem := fun _ _ => Iff.rfl
      grow := ⟨[], rfl⟩
      valid := fun hv => ⟨hv, rfl, rfl, rfl, rfl⟩
      next := fun _ => rfl }
  refine hinv.own hstep hinv.chain hinv.nodup hb hcritical ?_ ?_ ?_ ?_ ?_
  · unfold clearing at hnobusy ⊢
    rw [hbusy, hnobusy.1]
    rfl
  · unfold executed at hnobusy ⊢
    rw [hbusy, hnobusy.2]
    rfl
  · rw [goto_pc_self]
    exact hlink
  · rw [goto_pc_self]
    exact hrequest
  · intro p hp
    rw [goto_pc_self] at hp
    rw [hp] at hcomb
    exact absurd hcomb (by simp [combining])

variable [LinearOrder κ]

lemma Inv.pcStep (hinv : Inv combined s slots holder a) (hnot : (s.pc t).combining = none)
    (hs : pcStep combined O s t sorted (s.pc t) = some s') :
    ∃ slots' holder', Inv combined s' slots' holder' a := by
  have hlink := hinv.link t
  have hreq := hinv.request t
  generalize hpc : s.pc t = pc at hs hlink hreq hnot
  cases pc with
  | idle =>
    exact absurd hs (by simp [FlatCombining.pcStep])
  | writeOp op v =>
    obtain rfl := some.inj hs
    obtain ⟨hvalid, hstatus⟩ := hreq
    exact ⟨slots, holder, hinv.put hpc rfl rfl rfl (fun hv => absurd hv (by simp [Valid, hvalid]))
      (fun _ => rfl) (hlink.plain rfl rfl rfl rfl) ⟨hvalid, hstatus, rfl⟩⟩
  | writeReq op v =>
    obtain rfl := some.inj hs
    obtain ⟨hvalid, hstatus, hop⟩ := hreq
    exact ⟨slots, holder, hinv.put hpc rfl rfl rfl (fun hv => absurd hv (by simp [Valid, hvalid]))
      (fun _ => rfl) (hlink.plain rfl rfl rfl rfl) ⟨hvalid, hstatus, hop, rfl⟩⟩
  | setValid op v =>
    obtain rfl := some.inj hs
    obtain ⟨hvalid, hstatus, hop, hv⟩ := hreq
    refine ⟨slots, holder, hinv.put hpc rfl rfl rfl (fun hv => absurd hv (by simp [Valid, hvalid]))
      (fun _ => rfl) (hlink.plain rfl rfl rfl rfl) ⟨by simp, fun _ _ => ?_⟩⟩
    rw [hstatus, hop, hv]
  | checkLinked site =>
    obtain rfl := some.inj hs
    by_cases hl : (s.slot t).isSlotLinked = true
    · rw [if_pos hl]
      refine ⟨slots, holder, hinv.read hpc rfl site.next_combining site.next_critical
        (hlink.plain rfl rfl site.next_enqueuing site.next_unlinked) (Site.next_request hreq) ?_⟩
      intro hcomb _
      have hcrit := Site.next_locked hcomb
      rcases hlink.linked.mp hl with hmem | hcut | henq
      · exact hmem
      · exact absurd hcut (by simp [(hinv.nobusy hpc rfl hcrit).1])
      · exact absurd henq (by simp [enqueuing])
    · rw [if_neg hl]
      have hl' : (s.slot t).isSlotLinked = false := by simpa using hl
      exact ⟨slots, holder, hinv.read hpc rfl (.inl rfl) rfl
        (hlink.same rfl rfl (fun _ => hl') nofun) hreq (by simp [combining])⟩
  | checkValid site =>
    obtain rfl := some.inj hs
    have hl := hlink.unlinked rfl
    by_cases hv : (s.slot t).isRequestValid = true
    · rw [if_pos hv]
      exact ⟨slots, holder, hinv.read hpc rfl (.inl rfl) rfl
        (hlink.same rfl rfl (fun _ => hl) nofun) hreq (by simp [combining])⟩
    · rw [if_neg hv]
      exact ⟨slots, holder, hinv.read hpc rfl site.next_combining site.next_critical
        (hlink.plain rfl rfl site.next_enqueuing site.next_unlinked) (Site.next_request hreq)
        (fun _ hv' => absurd hv' hv)⟩
  | enqFlag site =>
    obtain rfl := some.inj hs
    exact ⟨slots, holder, hinv.put hpc rfl rfl rfl
      (fun hv => ⟨hv, rfl, rfl, rfl⟩) (fun _ => rfl) (hlink.begun rfl rfl rfl rfl (by simp)) hreq⟩
  | enqReadStamp site =>
    obtain rfl := some.inj hs
    exact ⟨slots, holder, hinv.read hpc rfl (.inl rfl) rfl
      (hlink.same rfl rfl nofun nofun) hreq (by simp [combining])⟩
  | enqStamp site v =>
    obtain rfl := some.inj hs
    exact ⟨slots, holder, hinv.put hpc rfl rfl rfl
      (fun hv => ⟨hv, rfl, rfl, rfl⟩) (fun _ => rfl) (hlink.same rfl rfl nofun nofun) hreq⟩
  | enqTail site =>
    obtain rfl := some.inj hs
    exact ⟨slots, holder, hinv.read hpc rfl (.inl rfl) rfl
      (hlink.same rfl rfl nofun nofun) hreq (by simp [combining])⟩
  | enqNext site tl =>
    obtain rfl := some.inj hs
    refine ⟨slots, holder, hinv.put hpc rfl rfl rfl
      (fun hv => ⟨hv, rfl, rfl, rfl⟩) (fun hmem => absurd hmem (hlink.enqueuing rfl).1)
      (hlink.same rfl rfl nofun ?_) hreq⟩
    rintro site' tl' heq
    obtain ⟨-, rfl⟩ := enqCas.inj heq
    rfl
  | enqCas site tl =>
    dsimp only [FlatCombining.pcStep] at hs
    split at hs
    · obtain rfl := some.inj hs
      exact ⟨t :: slots, holder, hinv.enqCas hpc (by assumption)⟩
    · obtain rfl := some.inj hs
      exact ⟨slots, holder, hinv.read hpc rfl (.inl rfl) rfl
        (hlink.same rfl rfl nofun nofun) hreq (by simp [combining])⟩
  | lockRead n =>
    obtain rfl := some.inj hs
    split
    · exact hinv.goOn hpc rfl rfl rfl rfl rfl rfl hreq
    · cases n with
      | zero | succ n => exact hinv.goOn hpc rfl rfl rfl rfl rfl rfl hreq
  | lockCas =>
    dsimp only [FlatCombining.pcStep] at hs
    split at hs
    · obtain rfl := some.inj hs
      exact hinv.goOn hpc rfl rfl rfl rfl rfl rfl hreq
    · rename_i hfree
      obtain rfl := some.inj hs
      have hholder : holder = none := by
        have hlock := hinv.lock
        rw [Bool.eq_false_of_not_eq_true hfree] at hlock
        exact isNone_iff_eq_none.mp (isSome_eq_false_iff.mp hlock.symm)
      subst hholder
      exact ⟨slots, some t, hinv.relock rfl rfl (iff_of_true rfl rfl) ⟨rfl, rfl⟩ (by simp)
        (fun u hu => (some.inj hu).symm) (hlink.plain rfl rfl rfl rfl) hreq⟩
  | waitValid | waitLock =>
    obtain rfl := some.inj hs
    split
    · exact hinv.goOn hpc rfl rfl rfl rfl rfl rfl hreq
    · exact hinv.goOn hpc rfl rfl rfl rfl rfl rfl hreq
  | lastValid =>
    obtain rfl := some.inj hs
    split
    · exact hinv.goOn hpc rfl rfl rfl rfl rfl rfl hreq
    · rename_i hv
      have hv' := Bool.eq_false_of_not_eq_true hv
      exact hinv.goOn hpc rfl rfl rfl rfl rfl rfl ⟨hv', hreq.1 hv'⟩
  | pass p =>
    exact absurd hnot (by simp [combining])
  | unlock =>
    have hcrit : (s.pc t).critical = true := by
      rw [hpc]
      rfl
    have hholder := (hinv.critical t).mp hcrit
    obtain rfl := some.inj hs
    exact ⟨slots, none, hinv.relock rfl rfl
      (iff_of_false (by simp [Pc.critical, Pc.site]) (by simp)) (hinv.nobusy hpc rfl rfl)
      (fun u hu => some.inj (hu.symm.trans hholder)) (by simp)
      (hlink.plain rfl rfl rfl rfl) hreq⟩
  | readRet =>
    obtain rfl := some.inj hs
    exact hinv.goOn hpc rfl rfl rfl rfl rfl rfl hreq
  | ret r =>
    exact absurd hs (by simp [FlatCombining.pcStep])

end

end SmcPim.FlatCombining
