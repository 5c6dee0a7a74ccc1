import SmcPim.FineList.Invariant

/-! # Steps of the list with a lock in each node -/

namespace SmcPim.FineList

open List Function

variable {α κ τ : Type} [LinearOrder κ] {E : Ends α}
  {h h' : Heap α κ τ} {s s' : State α κ τ} {nodes nodes' : List α} {op : SetOp κ} {loc loc' : Loc α}
  {t u : τ} {p c n d : α} {x : κ} {r : Bool}

lemma At.mem_held (hat : At E h nodes op loc) (hl : Linked E h nodes) (hp : p ∈ held op loc) :
    p ∈ E.head :: nodes ++ [E.tail] ∨ owned loc = some p := by
  have hpre : ∀ {q}, q ∈ E.head :: nodes → q ∈ E.head :: nodes ++ [E.tail] :=
    fun hq => mem_append_left _ hq
  have hpost : ∀ {q}, q ∈ nodes ++ [E.tail] → q ∈ E.head :: nodes ++ [E.tail] :=
    fun hq => mem_cons_of_mem _ hq
  have hpair : ∀ {q v : α}, q ∈ E.head :: nodes → h.next q = v → p ∈ [q, v] →
      p ∈ E.head :: nodes ++ [E.tail] := by
    rintro q v hq rfl hp
    rcases mem_cons.mp hp with rfl | hp
    · exact hpre hq
    · rw [mem_singleton.mp hp]
      exact hpost (hl.next_mem hq)
  cases loc with
  | lockHead => exact absurd hp not_mem_nil
  | advance curr => exact .inl (hpre (mem_singleton.mp hp ▸ hat.1))
  | lockCurr pred curr => exact .inl (hpre (mem_singleton.mp hp ▸ hat.1.1))
  | unlockPred pred curr => exact .inl (hpair hat.1.1 hat.2.1 hp)
  | test pred curr =>
    cases op with
    | contains x => exact .inl (hpost (mem_singleton.mp hp ▸ hat.1))
    | add x | remove x => exact .inl (hpair hat.1.1 hat.2 hp)
  | release pred curr => exact .inl (hpair hat.1.1 hat.2.1 hp)
  | create pred curr | setNext pred curr node1 | link pred curr node1 =>
    exact .inl (hpair hat.1.1.1 hat.1.2.1 hp)
  | readNext pred curr | unlink pred curr succ => exact .inl (hpair hat.1.1 hat.1.2.1 hp)
  | unlockCurr pred curr =>
    rcases mem_cons.mp hp with rfl | hp
    · exact .inl (hpre hat.1)
    · exact .inr (by rw [mem_singleton.mp hp]; rfl)
  | delete pred curr => exact .inl (hpre (mem_singleton.mp hp ▸ hat.1))
  | unlockBoth pred curr r =>
    rcases mem_cons.mp hp with rfl | hp
    · exact .inl (hpre hat.1)
    · exact .inl (hpost (mem_singleton.mp hp ▸ hat.2.1))
  | unlockLast node r => exact .inl (mem_singleton.mp hp ▸ hat)
  | ret r => exact absurd hp not_mem_nil

lemma At.own (hat : At E h nodes op loc) (hp : owned loc = some p) : Private E h nodes p := by
  cases loc <;> simp only [owned, Option.some.injEq, reduceCtorEq] at hp <;> subst hp
  · exact hat.2.2.1
  · exact hat.2.2.1
  · exact hat.2
  · exact hat.2

/-! ## Writes outside of the list -/

lemma Linked.relock (hl : Linked E h nodes) (l : α → Option τ) : Linked E
    { h with lock := l } nodes :=
  { hl with }

section
variable [DecidableEq α]

omit [LinearOrder κ] in
lemma update_data_of_live (hn : n ∉ h.live) {q : α} (hq : q ∈ h.live) :
    update h.data n x q = h.data q := by
  apply update_of_ne
  rintro rfl
  exact hn hq

lemma Linked.new (hl : Linked E h nodes) (hgap : Gap E h nodes x p c) (hn : n ∉ h.live)
    (l : α → Option τ) :
    let h' := { data := update h.data n x, next := h.next, lock := l, live := insert n h.live }
    Linked E h' nodes ∧ keys h' nodes = keys h nodes ∧ Gap E h' nodes x p c ∧ Private E h' nodes n := by
  have hnodes : ∀ q ∈ nodes, update h.data n x q = h.data q := fun q hq =>
    update_data_of_live hn (hl.mem_live (mem_append_left _ hq))
  obtain ⟨⟨hp, hbelow⟩, hnext, hc⟩ := hgap
  refine ⟨{ hl with sorted := hl.sorted.congr hnodes, live := ?_ }, ?_, ⟨⟨hp, ?_⟩, hnext, ?_⟩, ?_⟩
  · exact fun q hq => Finset.mem_insert_of_mem (hl.live q hq)
  · exact congrArg toFinset (map_congr_left hnodes)
  · exact hbelow.imp_right fun hlt => (update_data_of_live hn (hl.live p (mem_append_left _ hp))).trans_lt hlt
  · have hlive : c ∈ h.live := hl.mem_live (hnext ▸ hl.next_mem hp)
    exact hc.imp_right fun hlt => hlt.trans_eq (update_data_of_live hn hlive).symm
  · exact ⟨Finset.mem_insert_self .., fun hmem => hn (hl.live n hmem)⟩

lemma Linked.setNext (hl : Linked E h nodes) (hgap : Gap E h nodes x p c) (hn : Private E h nodes n) :
    let h' := { h with next := update h.next n c }
    Linked E h' nodes ∧ Gap E h' nodes x p c := by
  have hnext : ∀ q ∈ E.head :: nodes, update h.next n c q = h.next q := by
    intro q hq
    apply update_of_ne
    rintro rfl
    exact hn.2 (mem_append_left _ hq)
  obtain ⟨hr, hpred, hc⟩ := hgap
  exact ⟨⟨hl.list.congr hnext, hl.sorted, hl.head, hl.tail, hl.live⟩, hr, (hnext p hr.1).trans hpred, hc⟩

lemma Linked.delete (hl : Linked E h nodes) (hc : Private E h nodes c) :
    Linked E { h with live := h.live.erase c } nodes := by
  refine ⟨hl.list, hl.sorted, hl.head, hl.tail, fun q hq => Finset.mem_erase.mpr ⟨?_, hl.live q hq⟩⟩
  rintro rfl
  exact hc.2 hq

end

namespace Inv

section
variable (hinv : Inv E s nodes)
include hinv

lemma own (hp : (s.thread u).owned = some p) : Private E s.heap nodes p := by
  cases hu : s.thread u with
  | idle => simp [hu, Thread.owned] at hp
  | busy op loc =>
    rw [hu] at hp
    exact (hinv.knows u op loc hu).own hp

lemma mem_held (hp : p ∈ (s.thread u).held) :
    p ∈ E.head :: nodes ++ [E.tail] ∨ (s.thread u).owned = some p := by
  cases hu : s.thread u with
  | idle => simp [hu, Thread.held] at hp
  | busy op loc =>
    rw [hu] at hp
    exact (hinv.knows u op loc hu).mem_held hinv.linked hp

lemma held_live (hp : p ∈ (s.thread u).held) : p ∈ s.heap.live := by
  rcases hinv.mem_held hp with hp | hp
  · exact hinv.linked.live p hp
  · exact (hinv.own hp).1

lemma not_held (hp : p ∈ (s.thread t).held) (hne : u ≠ t) : p ∉ (s.thread u).held := by
  intro hu
  have ht := (hinv.locks t p).mpr hp
  rw [(hinv.locks u p).mpr hu] at ht
  exact hne (Option.some.inj ht)

lemma not_held_of_own (hp : (s.thread t).owned = some p) (hne : u ≠ t) : p ∉ (s.thread u).held := by
  intro hu
  rcases hinv.mem_held hu with hmem | hown
  · exact (hinv.own hp).2 hmem
  · exact hinv.apart u t p hne hown hp

end

/-! ## One thread moves -/

variable [DecidableEq τ]

lemma move (hinv : Inv E s nodes) (hlinked : Linked E h' nodes')
    (hframe : ∀ u ≠ t, Frame E s.heap h' nodes nodes' (s.thread u).held (s.thread u).owned)
    (hothers : ∀ p, ∀ u ≠ t, h'.lock p = some u ↔ s.heap.lock p = some u)
    (hknows : At E h' nodes' op loc') (hlocks : ∀ p, h'.lock p = some t ↔ p ∈ held op loc')
    (hapart : ∀ p, owned loc' = some p → ∀ u ≠ t, (s.thread u).owned ≠ some p) :
    Inv E ⟨h', update s.thread t (.busy op loc')⟩ nodes' where
  linked := hlinked
  locks := by
    intro u q
    by_cases hu : u = t
    · subst hu
      dsimp only
      rw [update_self]
      exact hlocks q
    · dsimp only
      rw [update_of_ne hu, hothers q u hu]
      exact hinv.locks u q
  knows := by
    intro u op' loc'' hthread
    dsimp only at hthread ⊢
    by_cases hu : u = t
    · subst hu
      rw [update_self] at hthread
      obtain ⟨rfl, rfl⟩ := Thread.busy.inj hthread
      exact hknows
    · rw [update_of_ne hu] at hthread
      have hf := hframe u hu
      rw [hthread] at hf
      exact hf.at_of_at hinv.linked (hinv.knows u op' loc'' hthread)
  apart := by
    intro u v q hne hu
    dsimp only at hu ⊢
    by_cases hut : u = t
    · subst hut
      rw [update_self] at hu
      rw [update_of_ne hne.symm]
      exact hapart q hu v hne.symm
    · rw [update_of_ne hut] at hu
      by_cases hvt : v = t
      · subst hvt
        rw [update_self]
        exact fun hv => hapart q hv u hut hu
      · rw [update_of_ne hvt]
        exact hinv.apart u v q hne hu

lemma relock (hinv : Inv E s nodes) (ht : s.thread t = .busy op loc) {l : α → Option τ}
    (hothers : ∀ p, ∀ u ≠ t, l p = some u ↔ s.heap.lock p = some u)
    (hknows : At E s.heap nodes op loc') (hlocks : ∀ p, l p = some t ↔ p ∈ held op loc')
    (hown : owned loc' = owned loc) :
    Inv E ⟨{ s.heap with lock := l }, update s.thread t (.busy op loc')⟩ nodes := by
  refine hinv.move (hinv.linked.relock l) ?_ hothers ?_ hlocks ?_
  · exact fun u _ => ⟨fun _ _ => rfl, fun _ _ => rfl, fun _ _ => rfl, fun _ _ => id, fun _ _ => id,
      fun _ _ _ _ => id⟩
  · exact hknows
  · intro q hq u hu
    apply hinv.apart t u q hu.symm
    rw [ht]
    exact hown.symm.trans hq

lemma stay (hinv : Inv E s nodes) (ht : s.thread t = .busy op loc)
    (hknows : At E s.heap nodes op loc') (hheld : held op loc' = held op loc)
    (hown : owned loc' = owned loc) : Inv E ⟨s.heap, update s.thread t (.busy op loc')⟩ nodes := by
  refine hinv.relock ht (fun _ _ _ => Iff.rfl) hknows ?_ hown
  intro q
  rw [hinv.locks t q, ht, hheld]
  rfl

variable [DecidableEq α]

section
variable (hinv : Inv E s nodes) (ht : s.thread t = .busy op loc)
include hinv ht

lemma setLock {o : Option τ}
    (hold : s.heap.lock p = none ∨ s.heap.lock p = some t) (hnew : o = none ∨ o = some t)
    (hknows : At E s.heap nodes op loc') (hself : o = some t ↔ p ∈ held op loc')
    (hheld : ∀ q ≠ p, q ∈ held op loc' ↔ q ∈ held op loc) (hown : owned loc' = owned loc) :
    Inv E ⟨{ s.heap with lock := update s.heap.lock p o },
      update s.thread t (.busy op loc')⟩ nodes := by
  refine hinv.relock ht ?_ hknows ?_ hown
  · intro q u hu
    by_cases hq : q = p
    · rw [hq, update_self]
      rcases hold with hold | hold <;> rcases hnew with rfl | rfl <;> simp [hold, hu.symm]
    · rw [update_of_ne hq]
  · intro q
    by_cases hq : q = p
    · rw [hq, update_self, hself]
    · have hlock := hinv.locks t q
      rw [ht] at hlock
      rw [update_of_ne hq, hlock, hheld q hq]
      rfl

lemma acquire (hfree : s.heap.lock p = none) (hknows : At E s.heap nodes op loc')
    (hheld : ∀ q, q ∈ held op loc' ↔ q = p ∨ q ∈ held op loc) (hown : owned loc' = owned loc) :
    Inv E ⟨{ s.heap with lock := update s.heap.lock p (some t) },
      update s.thread t (.busy op loc')⟩ nodes :=
  hinv.setLock ht (.inl hfree) (.inr rfl) hknows (by simp [hheld]) (fun q hq => by simp [hheld, hq]) hown

lemma giveUp (hp : p ∈ held op loc) (hknows : At E s.heap nodes op loc')
    (hheld : ∀ q, q ∈ held op loc' ↔ q ≠ p ∧ q ∈ held op loc) (hown : owned loc' = owned loc) :
    Inv E ⟨{ s.heap with lock := update s.heap.lock p none },
      update s.thread t (.busy op loc')⟩ nodes := by
  have hlock : s.heap.lock p = some t := (hinv.locks t p).mpr (by rw [ht]; exact hp)
  exact hinv.setLock ht (.inr hlock) (.inl rfl) hknows (by simp [hheld]) (fun q hq => by simp [hheld, hq]) hown

end

lemma new (hinv : Inv E s nodes) (ht : s.thread t = .busy op (.create p c)) (hn : n ∉ s.heap.live) :
    Inv E ⟨{ data := update s.heap.data n op.key, next := s.heap.next
             lock := update s.heap.lock n none, live := insert n s.heap.live },
      update s.thread t (.busy op (.setNext p c n))⟩ nodes := by
  have hl := hinv.linked
  obtain ⟨hgap, hop⟩ := hinv.knows t _ _ ht
  obtain ⟨hlinked, -, hgap', hpriv⟩ := hl.new hgap hn (update s.heap.lock n none)
  have hlock : ∀ q u, update s.heap.lock n none q = some u ↔ s.heap.lock q = some u := by
    intro q u
    by_cases hq : q = n
    · subst hq
      rw [update_self]
      refine iff_of_false (by simp) fun hu => hn ?_
      exact hinv.held_live ((hinv.locks u q).mp hu)
    · rw [update_of_ne hq]
  refine hinv.move hlinked (fun u _ => ?_) (fun q u _ => hlock q u) ⟨hgap', hop, hpriv, update_self ..⟩ ?_ ?_
  · refine ⟨fun _ _ => rfl, fun _ _ => rfl, fun q hq => update_data_of_live hn hq, fun _ _ => id, ?_, ?_⟩
    · exact fun q _ hq => ⟨Finset.mem_insert_of_mem hq.1, hq.2⟩
    · intro x c _ hc hpast y hy hbefore
      have hy' := update_data_of_live (x := op.key) hn (hl.mem_live (mem_append_left _ hy))
      dsimp only at hbefore ⊢
      rw [hy'] at hbefore ⊢
      rw [update_data_of_live hn (hl.mem_live hc)] at hbefore
      exact hpast y hy hbefore
  · intro q
    rw [hlock, hinv.locks t q, ht]
    rfl
  · rintro q hq u - hu
    obtain rfl := Option.some.inj hq
    exact hn (hinv.own hu).1

lemma setNext (hinv : Inv E s nodes) (ht : s.thread t = .busy op (.setNext p c n)) :
    Inv E ⟨{ s.heap with next := update s.heap.next n c },
      update s.thread t (.busy op (.link p c n))⟩ nodes := by
  have hl := hinv.linked
  obtain ⟨hgap, hop, hn, hx⟩ := hinv.knows t _ _ ht
  obtain ⟨hlinked, hgap'⟩ := hl.setNext hgap hn
  have hown : (s.thread t).owned = some n := by rw [ht]; rfl
  refine hinv.move hlinked ?_ (fun _ _ _ => Iff.rfl) ⟨hgap', hop, hn, hx, update_self ..⟩ ?_ ?_
  · intro u hu
    refine ⟨?_, ?_, fun _ _ => rfl, fun _ _ => id, fun _ _ => id, fun _ _ _ _ => id⟩
    · intro q hq
      apply update_of_ne
      rintro rfl
      exact hinv.not_held_of_own hown hu hq
    · intro q hq
      apply update_of_ne
      rintro rfl
      exact hinv.apart u t q hu hq hown
  · intro q
    dsimp only
    rw [hinv.locks t q, ht]
    rfl
  · rintro q hq u hu
    exact hinv.apart t u q hu.symm (by rw [ht]; exact hq)

lemma delete (hinv : Inv E s nodes) (ht : s.thread t = .busy op (.delete p c)) :
    Inv E ⟨{ s.heap with live := s.heap.live.erase c },
      update s.thread t (.busy op (.unlockLast p true))⟩ nodes := by
  have hl := hinv.linked
  obtain ⟨hp, hc⟩ := hinv.knows t _ _ ht
  refine hinv.move (hl.delete hc) ?_ (fun _ _ _ => Iff.rfl) (mem_append_left _ hp) ?_ ?_
  · intro u hu
    refine ⟨fun _ _ => rfl, fun _ _ => rfl, fun _ _ => rfl, fun _ _ => id, ?_, fun _ _ _ _ => id⟩
    intro q hq hpriv
    refine ⟨Finset.mem_erase.mpr ⟨?_, hpriv.1⟩, hpriv.2⟩
    rintro rfl
    exact hinv.apart u t q hu hq (by rw [ht]; rfl)
  · intro q
    dsimp only
    rw [hinv.locks t q, ht]
    rfl
  · simp [owned]

end Inv

/-! ## The list changes -/

lemma Linked.cut (hl : Linked E h nodes) (hp : p ∈ E.head :: nodes) :
    ∃ xs us ys, E.head :: us = xs ++ [p] ∧ nodes = us ++ ys ∧
      h.next p = (ys ++ [E.tail]).head (by simp) := by
  obtain ⟨xs, ys, heq, hnext⟩ := hl.split hp
  cases xs with
  | nil =>
    obtain ⟨rfl, rfl⟩ := cons.inj heq
    exact ⟨[], [], nodes, rfl, rfl, hnext⟩
  | cons y xs =>
    obtain ⟨rfl, rfl⟩ := cons.inj heq
    exact ⟨E.head :: xs, xs ++ [p], ys, rfl, by simp, hnext⟩

variable {us ys : List α}

lemma Linked.past_insert {z : α} (hl : Linked E h (us ++ ys))
    (hparted : Parted h.data (h.data n) us ys) (hz : z = (ys ++ [E.tail]).head (by simp)) (hne : c ≠ z)
    (hc : c ∈ us ++ ys ++ [E.tail]) (hpast : Past E h (us ++ ys) x c) :
    Past E h (us ++ n :: ys) x c := by
  intro y hy hbefore
  by_cases hyn : y = n
  · subst hyn
    obtain ⟨-, hsorted, -⟩ := pairwise_append.mp hl.sorted
    have hus : c ∉ us ∨ c = E.tail := by
      rcases hbefore with htail | hlt
      · exact .inr htail
      · exact .inl fun hmem => lt_asymm hlt (hparted.below c hmem)
    cases ys with
    | nil =>
      obtain rfl : z = E.tail := hz
      rcases hus with hus | htail
      · exact absurd hc (by simp [hus, hne])
      · exact absurd htail hne
    | cons w ws =>
      obtain rfl : z = w := hz
      refine lt_of_le_of_lt (hparted.above z mem_cons_self) (hpast z (by simp) ?_)
      rcases hus with hus | htail
      · simp only [append_assoc, cons_append, mem_append, mem_cons, hus, hne,
          false_or, not_mem_nil, or_false] at hc
        exact hc.symm.imp_right ((pairwise_cons.mp hsorted).1 c)
      · exact .inl htail
  · exact hpast y (by simpa [hyn] using hy) hbefore

lemma keys_insert (hx : h.data n = x) : keys h (us ++ n :: ys) = insert x (keys h (us ++ ys)) :=
  hx ▸ keySet_insert fun _ _ => rfl

lemma Linked.taken (hl : Linked E h (us ++ c :: ys)) (hx : h.data c = x) :
    keys h (us ++ ys) = (keys h (us ++ c :: ys)).erase x ∧ Private E h (us ++ ys) c := by
  have hmem : c ∈ us ++ c :: ys := by simp
  have hsorted := hl.sorted.nodup_keys
  rw [map_append, map_cons, nodup_middle, nodup_cons, ← map_append, hx] at hsorted
  have hnot : x ∉ keys h (us ++ ys) := fun hin => hsorted.1 (mem_toFinset.mp hin)
  refine ⟨?_, hl.mem_live (mem_append_left _ hmem), ?_⟩
  · rw [keys_insert hx, Finset.erase_insert hnot]
  · have hhead : c ≠ E.head := fun heq => hl.head (heq ▸ hmem)
    have htail : c ≠ E.tail := fun heq => hl.tail (heq ▸ hmem)
    have hc : c ∉ us ++ ys := fun hin => hnot (mem_keys hin hx)
    simpa [hhead, htail] using hc

section
variable [DecidableEq α]

lemma Linked.link (hl : Linked E h nodes) (hgap : Gap E h nodes x p c)
    (hn : Private E h nodes n) (hx : h.data n = x) (hnext : h.next n = c) :
    ∃ us ys, nodes = us ++ ys ∧ c = (ys ++ [E.tail]).head (by simp) ∧ Parted h.data x us ys ∧
      Linked E { h with next := update h.next p n } (us ++ n :: ys) := by
  obtain ⟨hr, rfl, hc⟩ := hgap
  have hpast := hl.past hr
  have hnot := Linked.not_mem_keys hpast hc
  obtain ⟨xs, us, ys, hus, rfl, hfirst⟩ := hl.cut hr.1
  have hparted : Parted h.data x us ys := by
    obtain ⟨-, hsorted, hless⟩ := pairwise_append.mp hl.sorted
    rw [hfirst] at hpast hc
    cases ys with
    | nil => exact ⟨fun y hy => hpast y (by simpa using hy) (.inl rfl), by simp⟩
    | cons z zs =>
      have hz : x < h.data z := by
        rcases hc with heq | hlt
        · have htail : E.tail = z := heq.symm
          exact absurd (mem_append_right us (mem_cons.mpr (.inl htail))) hl.tail
        · exact hlt
      refine ⟨fun y hy => ?_, fun y hy => ?_⟩
      · exact hpast y (mem_append_left _ hy) (.inr (hless y hy z mem_cons_self))
      · rcases mem_cons.mp hy with rfl | hy
        · exact le_of_lt hz
        · exact le_of_lt (lt_trans hz ((pairwise_cons.mp hsorted).1 y hy))
  have hwhole : E.head :: (us ++ ys) = xs ++ p :: ys := by
    rw [← cons_append, hus, append_assoc]
    rfl
  have hnp : n ≠ p := by
    rintro rfl
    exact hn.2 (mem_append_left _ hr.1)
  refine ⟨us, ys, rfl, hfirst, hparted, ?_, ?_, ?_, ?_, ?_⟩
  · have hlist := hl.list
    have hnodup := (nodup_append.mp hl.nodup).1
    rw [hwhole] at hlist hnodup
    rw [← cons_append, hus, append_assoc]
    exact hlist.insert hnodup (update_self ..) ((update_of_ne hnp ..).trans hnext)
      fun y _ hy => update_of_ne hy ..
  · exact hparted.insert hl.sorted hx fun hmem => hnot (mem_toFinset.mpr hmem)
  · intro hmem
    rcases mem_append.mp hmem with hmem | hmem
    · exact hl.head (mem_append_left _ hmem)
    · rcases mem_cons.mp hmem with heq | hmem
      · exact hn.2 (by simp [heq])
      · exact hl.head (mem_append_right _ hmem)
  · intro hmem
    rcases mem_append.mp hmem with hmem | hmem
    · exact hl.tail (mem_append_left _ hmem)
    · rcases mem_cons.mp hmem with heq | hmem
      · exact hn.2 (by simp [heq])
      · exact hl.tail (mem_append_right _ hmem)
  · intro q hq
    by_cases hqn : q = n
    · rw [hqn]
      exact hn.1
    · refine hl.live q ?_
      simpa [hqn] using hq

lemma Linked.unlink (hl : Linked E h nodes) (hf : Found E h nodes x p c) :
    ∃ us ys, nodes = us ++ c :: ys ∧
      Linked E { h with next := update h.next p (h.next c) } (us ++ ys) := by
  obtain ⟨hp, hnext, hc, -⟩ := hf
  obtain ⟨xs, us, ys, hus, rfl, hfirst⟩ := hl.cut hp
  cases ys with
  | nil =>
    have heq : c = E.tail := hnext.symm.trans hfirst
    exact absurd (heq ▸ hc) hl.tail
  | cons z ys =>
    obtain rfl : c = z := hnext.symm.trans hfirst
    have hsub : (us ++ ys).Sublist (us ++ c :: ys) :=
      (List.Sublist.refl us).append (sublist_cons_self c ys)
    have hwhole : E.head :: (us ++ c :: ys) = xs ++ p :: c :: ys := by
      rw [← cons_append, hus, append_assoc]
      rfl
    refine ⟨us, ys, rfl, ?_, hl.sorted.sublist hsub, fun hmem => hl.head (hsub.subset hmem),
      fun hmem => hl.tail (hsub.subset hmem), ?_⟩
    · have hlist := hl.list
      have hnodup := (nodup_append.mp hl.nodup).1
      rw [hwhole] at hlist hnodup
      rw [← cons_append, hus, append_assoc]
      exact hlist.remove hnodup (update_self ..) fun y _ hy => update_of_ne hy ..
    · intro q hq
      apply hl.live
      exact ((hsub.cons_cons E.head).append (List.Sublist.refl _)).subset hq

end

namespace Inv

variable [DecidableEq τ] [DecidableEq α]

lemma link (hinv : Inv E s nodes) (ht : s.thread t = .busy op (.link p c n)) :
    ∃ nodes', Inv E ⟨{ s.heap with next := update s.heap.next p n },
        update s.thread t (.busy op (.unlockBoth p c true))⟩ nodes' ∧
      keys s.heap nodes' = insert op.key (keys s.heap nodes) ∧ op.key ∉ keys s.heap nodes := by
  have hl := hinv.linked
  obtain ⟨hgap, hop, hn, hx, hnext⟩ := hinv.knows t _ _ ht
  have hheld : ∀ q, q ∈ (s.thread t).held ↔ q ∈ [p, c] := fun q => by rw [ht]; rfl
  have hown : (s.thread t).owned = some n := by rw [ht]; rfl
  obtain ⟨us, ys, rfl, hc, hparted, hlinked⟩ := hl.link hgap hn hx hnext
  have hcmem : c ∈ us ++ ys ++ [E.tail] := hgap.2.1 ▸ hl.next_mem hgap.1.1
  refine ⟨us ++ n :: ys, hinv.move hlinked ?_ (fun _ _ _ => Iff.rfl) ?_ ?_ (by simp [owned]), ?_, ?_⟩
  · intro u hu
    have hpu := hinv.not_held ((hheld p).mpr (by simp)) hu
    have hcu := hinv.not_held ((hheld c).mpr (by simp)) hu
    refine ⟨?_, ?_, fun _ _ => rfl, ?_, ?_, ?_⟩
    · intro q hq
      apply update_of_ne
      rintro rfl
      exact hpu hq
    · intro q hq
      apply update_of_ne
      rintro rfl
      exact (hinv.own hq).2 (mem_append_left _ hgap.1.1)
    · intro q _ hq
      simp only [mem_append, mem_cons] at hq ⊢
      tauto
    · intro q hq hpriv
      refine ⟨hpriv.1, fun hmem => ?_⟩
      have hqn : q ≠ n := by
        rintro rfl
        exact hinv.apart u t q hu hq hown
      exact hpriv.2 (by simpa [hqn] using hmem)
    · -- A node that another thread holds is not `c`: nothing comes in right before it.
      intro x' c' hc' hmem hpast
      have hne : c' ≠ c := by
        rintro rfl
        exact hcu hc'
      rw [← hx] at hparted
      exact hl.past_insert hparted hc hne hmem hpast
  · refine ⟨?_, ?_, ?_⟩
    · have hp := hgap.1.1
      simp only [mem_cons, mem_append] at hp ⊢
      tauto
    · simp only [append_assoc, cons_append, mem_cons, mem_append] at hcmem ⊢
      tauto
    · rw [← hgap.2.1]
      exact (hl.next_ne hgap.1.1).symm
  · intro q
    dsimp only
    rw [hinv.locks t q, ht]
    rfl
  · exact keys_insert hx
  · exact Linked.not_mem_keys (hgap.2.1 ▸ hl.past hgap.1) hgap.2.2

lemma unlink (hinv : Inv E s nodes) (ht : s.thread t = .busy op (.unlink p c d)) :
    ∃ nodes', Inv E ⟨{ s.heap with next := update s.heap.next p d },
        update s.thread t (.busy op (.unlockCurr p c))⟩ nodes' ∧
      keys s.heap nodes' = (keys s.heap nodes).erase op.key ∧ op.key ∈ keys s.heap nodes := by
  have hl := hinv.linked
  obtain ⟨hfound, hop, rfl⟩ := hinv.knows t _ _ ht
  have hheld : ∀ q, q ∈ (s.thread t).held ↔ q ∈ [p, c] := fun q => by rw [ht]; rfl
  have hx := hfound.2.2.2
  have hmem := mem_keys hfound.2.2.1 hx
  obtain ⟨us, ys, rfl, hlinked⟩ := hl.unlink hfound
  obtain ⟨hkeys, hpriv⟩ := hl.taken hx
  have hpc : p ≠ c := by
    rw [← hfound.2.1]
    exact (hl.next_ne hfound.1).symm
  have hsub : ∀ q, q ∈ us ++ ys → q ∈ us ++ c :: ys := fun q hq =>
    ((List.Sublist.refl us).append (sublist_cons_self c ys)).subset hq
  refine ⟨us ++ ys, hinv.move hlinked ?_ (fun _ _ _ => Iff.rfl) ⟨by simpa [hpc] using hfound.1, hpriv⟩ ?_ ?_, hkeys, hmem⟩
  · intro u hu
    have hpu := hinv.not_held ((hheld p).mpr (by simp)) hu
    have hcu := hinv.not_held ((hheld c).mpr (by simp)) hu
    refine ⟨?_, ?_, fun _ _ => rfl, ?_, ?_, ?_⟩
    · intro q hq
      apply update_of_ne
      rintro rfl
      exact hpu hq
    · intro q hq
      apply update_of_ne
      rintro rfl
      exact (hinv.own hq).2 (mem_append_left _ hfound.1)
    · intro q hqu hq
      have hqc : q ≠ c := by
        rintro rfl
        exact hcu hqu
      simpa [hqc] using hq
    · intro q _ hpriv
      refine ⟨hpriv.1, fun hq => hpriv.2 ?_⟩
      simp only [cons_append, mem_cons, mem_append] at hq ⊢
      tauto
    · exact fun x' c' _ _ hpast y hy => hpast y (hsub y hy)
  · intro q
    dsimp only
    rw [hinv.locks t q, ht]
    rfl
  · rintro q hq u - hu
    obtain rfl := Option.some.inj hq
    exact (hinv.own hu).2 (by simp)

end Inv

end SmcPim.FineList
