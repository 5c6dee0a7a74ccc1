import SmcPim.LazyList.Invariant

/-! # One step of a thread -/

namespace SmcPim.LazyList

open FlatCombining List Function Option LazyList

variable {α τ : Type} [DecidableEq α] [DecidableEq τ] {s s' : State α τ} {l l' : List α} {t u : τ}
  {op : SetOp ℤ} {loc loc' : Loc α} {p q prev curr : α} {th' : Thread α}

structure Shift (s s' : State α τ) (l l' : List α) : Prop where
  key : ∀ p ∈ s.nodes.used, s'.nodes.key p = s.nodes.key p
  inserted : ∀ p, Inserted s p → Inserted s' p
  out : ∀ p, Inserted s p → p ∉ l → p ∉ l' ∧ s'.nodes.next p = s.nodes.next p
  cut : ∀ p ∈ l, p ∉ l' → s.nodes.key p < intMax ∧ s'.nodes.next p = s.nodes.next p ∧
    s.nodes.next p ∈ l'
  mark : ∀ p, Inserted s p → s'.marked p = true → s.marked p = true ∨ p ∈ l'
  stay : ∀ p, Inserted s p → s.marked p = true → s'.marked p = true

def Thread.Fits (s : State α τ) : Thread α → Prop
  | .idle => True
  | .busy op loc => (intMin < op.key ∧ op.key < intMax) ∧ At s op loc

def Keeps (s s' : State α τ) (l l' : List α) : Prop := Inv s' l' ∧ Shift s s' l l'

namespace Inv

section
omit [DecidableEq α] [DecidableEq τ]

lemma held_inserted (hinv : Inv s l) (hp : p ∈ (s.thread u).held) : Inserted s p := by
  cases hu : s.thread u with
  | idle =>
    rw [hu] at hp
    simp [Thread.held] at hp
  | busy op loc =>
    rw [hu] at hp
    exact (hinv.knows u op loc hu).inserted_of_held hp

lemma exclusive (hinv : Inv s l) (hp : p ∈ (s.thread t).held) (hu : u ≠ t) :
    p ∉ (s.thread u).held ∧ (s.thread u).owned ≠ some p := by
  refine ⟨fun hpu => ?_, (hinv.held_inserted hp).2 u⟩
  have h := ((hinv.locks t p).mpr hp).symm.trans ((hinv.locks u p).mpr hpu)
  exact hu (some.inj h).symm

lemma owned_exclusive (hinv : Inv s l) (hp : (s.thread t).owned = some p) (hu : u ≠ t) :
    p ∉ (s.thread u).held ∧ (s.thread u).owned ≠ some p :=
  ⟨fun hpu => (hinv.held_inserted hpu).2 t hp, hinv.apart t u p (Ne.symm hu) hp⟩

end

omit [DecidableEq α] in
lemma of_step (hinv : Inv s l) (hthread : s'.thread = update s.thread t th')
    (hkey : ∀ p ∈ s.nodes.used, s'.nodes.key p = s.nodes.key p)
    (hused : ∀ p ∈ s.nodes.used, p ∈ s'.nodes.used)
    (hown : ∀ u ≠ t, ∀ p, p ∈ (s.thread u).held ∨ (s.thread u).owned = some p →
      s'.nodes.next p = s.nodes.next p ∧ s'.marked p = s.marked p)
    (howned : ∀ p, th'.owned = some p → ¬ Inserted s p ∧ ∀ u ≠ t, (s.thread u).owned ≠ some p)
    (hsorted : s'.nodes.Sorted l') (hmem : ∀ p ∈ l', Inserted s' p)
    (hlive : ∀ p, Inserted s' p → s'.marked p = false → p ∈ l')
    (hnext : ∀ p, Inserted s' p → s'.nodes.key p < intMax → Inserted s' (s'.nodes.next p))
    (hlocks : ∀ u p, s'.lock p = some u ↔ p ∈ (s'.thread u).held)
    (hfits : th'.Fits s') : Inv s' l' := by
  have hself : s'.thread t = th' := by rw [hthread, update_self]
  have hother : ∀ u ≠ t, s'.thread u = s.thread u := fun u hu => by
    rw [hthread, update_of_ne hu]
  have hins : ∀ p, Inserted s p → Inserted s' p := by
    intro p hp
    refine ⟨hused p hp.1, fun u hu => ?_⟩
    by_cases hut : u = t
    · subst hut
      rw [hself] at hu
      exact (howned p hu).1 hp
    · rw [hother u hut] at hu
      exact hp.2 u hu
  refine ⟨hsorted, hmem, hlive, hnext, hlocks, fun u op loc hu => ?_, fun u op loc hu => ?_, ?_⟩
  · by_cases hut : u = t
    · subst hut
      obtain rfl := hself.symm.trans hu
      exact hfits.1
    · rw [hother u hut] at hu
      exact hinv.range u op loc hu
  · by_cases hut : u = t
    · subst hut
      obtain rfl := hself.symm.trans hu
      exact hfits.2
    · rw [hother u hut] at hu
      have hf : Frame s s' loc := by
        refine ⟨hins, hkey, hused, fun p hp => hown u hut p ?_⟩
        rw [hu]
        exact hp
      exact hf.at_ (hinv.knows u op loc hu)
  · intro u v p huv hu hv
    by_cases hut : u = t
    · subst hut
      rw [hself] at hu
      rw [hother v (Ne.symm huv)] at hv
      exact (howned p hu).2 v (Ne.symm huv) hv
    · rw [hother u hut] at hu
      by_cases hvt : v = t
      · subst hvt
        rw [hself] at hv
        exact (howned p hv).2 u hut hu
      · rw [hother v hvt] at hv
        exact hinv.apart u v p huv hu hv

/-! ## Steps that write to no node -/

section
omit [DecidableEq α]

lemma inserted_iff (hthread : s'.thread = update s.thread t th')
    (hused : s'.nodes.used = s.nodes.used) (ht : (s.thread t).owned = none)
    (hth' : th'.owned = none) : Inserted s' p ↔ Inserted s p := by
  unfold Inserted
  rw [hused, hthread]
  refine and_congr_right fun _ => forall_congr' fun u => ?_
  by_cases hut : u = t
  · subst hut
    simp [ht, hth']
  · rw [update_of_ne hut]

lemma quiet (hinv : Inv s l) (hnodes : s'.nodes = s.nodes) (hmarked : s'.marked = s.marked)
    (hthread : s'.thread = update s.thread t th') (ht : (s.thread t).owned = none)
    (hth' : th'.owned = none) (hlocks : ∀ u p, s'.lock p = some u ↔ p ∈ (s'.thread u).held)
    (hfits : th'.Fits s) : Keeps s s' l l := by
  have hins : ∀ p, Inserted s' p ↔ Inserted s p := fun p =>
    inserted_iff hthread (by rw [hnodes]) ht hth'
  have hframe : ∀ loc, Frame s s' loc := fun loc =>
    ⟨fun p => (hins p).mpr, fun p _ => by rw [hnodes], fun p hp => by rwa [hnodes],
      fun p _ => by rw [hnodes, hmarked]; exact ⟨rfl, rfl⟩⟩
  constructor
  · refine hinv.of_step hthread (fun p _ => by rw [hnodes]) (fun p hp => by rwa [hnodes])
      (fun u _ p _ => by rw [hnodes, hmarked]; exact ⟨rfl, rfl⟩) (by simp [hth'])
      (by rw [hnodes]; exact hinv.sorted) (fun p hp => (hins p).mpr (hinv.inserted p hp)) ?_ ?_ hlocks ?_
    · intro p hp hmark
      rw [hmarked] at hmark
      exact hinv.live p ((hins p).mp hp) hmark
    · intro p hp hmax
      rw [hnodes] at hmax ⊢
      exact (hins _).mpr (hinv.next p ((hins p).mp hp) hmax)
    · cases th' with
      | idle => trivial
      | busy op loc => exact ⟨hfits.1, (hframe loc).at_ hfits.2⟩
  · refine ⟨fun p _ => by rw [hnodes], fun p => (hins p).mpr, fun p _ hp => ⟨hp, by rw [hnodes]⟩,
      fun p hp hp' => absurd hp hp', fun p _ hp => .inl ?_, fun p _ hp => ?_⟩
    · rwa [hmarked] at hp
    · rwa [hmarked]

lemma move (hinv : Inv s l) (hheld : th'.held = (s.thread t).held) (ht : (s.thread t).owned = none)
    (hth' : th'.owned = none) (hfits : th'.Fits s) : Keeps s (s.goto t th') l l := by
  refine hinv.quiet rfl rfl rfl ht hth' (fun u p => ?_) hfits
  change s.lock p = some u ↔ p ∈ (update s.thread t th' u).held
  by_cases hut : u = t
  · subst hut
    rw [update_self, hheld]
    exact hinv.locks u p
  · rw [update_of_ne hut]
    exact hinv.locks u p

end

lemma relock {o : Option τ} (hinv : Inv s l)
    (hp : ∀ u, o = some u ↔ p ∈ (update s.thread t th' u).held)
    (hheld : ∀ q ≠ p, q ∈ th'.held ↔ q ∈ (s.thread t).held) (ht : (s.thread t).owned = none)
    (hth' : th'.owned = none) (hfits : th'.Fits s) : Keeps s ((s.setLock p o).goto t th') l l := by
  refine hinv.quiet rfl rfl rfl ht hth' (fun u q => ?_) hfits
  change update s.lock p o q = some u ↔ q ∈ (update s.thread t th' u).held
  by_cases hq : q = p
  · subst hq
    rw [update_self]
    exact hp u
  · rw [update_of_ne hq, hinv.locks u q]
    by_cases hut : u = t
    · subst hut
      rw [update_self, hheld q hq]
    · rw [update_of_ne hut]

lemma acquire (hinv : Inv s l) (hfree : s.lock p = none)
    (hheld : ∀ q, q ∈ th'.held ↔ q = p ∨ q ∈ (s.thread t).held)
    (ht : (s.thread t).owned = none) (hth' : th'.owned = none) (hfits : th'.Fits s) :
    Keeps s ((s.setLock p (some t)).goto t th') l l := by
  refine hinv.relock (fun u => ?_) (fun q hq => by simp [hheld, hq]) ht hth' hfits
  by_cases hut : u = t
  · subst hut
    rw [update_self, hheld]
    simp
  · rw [update_of_ne hut, ← hinv.locks u p, hfree]
    exact iff_of_false (fun h => hut (some.inj h).symm) (by simp)

lemma release (hinv : Inv s l) (hp : p ∈ (s.thread t).held)
    (hheld : ∀ q, q ∈ th'.held ↔ q ≠ p ∧ q ∈ (s.thread t).held)
    (ht : (s.thread t).owned = none) (hth' : th'.owned = none) (hfits : th'.Fits s) :
    Keeps s ((s.setLock p none).goto t th') l l := by
  refine hinv.relock (fun u => iff_of_false (by simp) ?_) (fun q hq => by simp [hheld, hq]) ht hth' hfits
  by_cases hut : u = t
  · subst hut
    rw [update_self, hheld]
    simp
  · rw [update_of_ne hut]
    exact (hinv.exclusive hp hut).1

/-! ## Steps that write to a node -/

omit [DecidableEq α] [DecidableEq τ] in
lemma owned_used (hinv : Inv s l) (hp : (s.thread u).owned = some p) : p ∈ s.nodes.used := by
  cases hu : s.thread u with
  | idle =>
    rw [hu] at hp
    simp [Thread.owned] at hp
  | busy op loc =>
    have hat := hinv.knows u op loc hu
    rw [hu] at hp
    cases loc with
    | setNext prev curr newNode => exact some.inj hp ▸ hat.2.2.2.1
    | link prev curr newNode => exact some.inj hp ▸ hat.2.2.2.1
    | _ => simp [Thread.owned, owned] at hp

omit [DecidableEq α] in
lemma inserted_of (hthread : s'.thread = update s.thread t th')
    (hused : ∀ p ∈ s.nodes.used, p ∈ s'.nodes.used) (hth' : th'.owned ≠ some p)
    (hp : Inserted s p) : Inserted s' p := by
  refine ⟨hused p hp.1, fun u => ?_⟩
  rw [hthread]
  by_cases hut : u = t
  · subst hut
    rwa [update_self]
  · rw [update_of_ne hut]
    exact hp.2 u

omit [DecidableEq α] in
lemma inserted_back (hthread : s'.thread = update s.thread t th')
    (hused : p ∈ s'.nodes.used → p ∈ s.nodes.used) (ht : (s.thread t).owned ≠ some p)
    (hp : Inserted s' p) : Inserted s p := by
  refine ⟨hused hp.1, fun u => ?_⟩
  by_cases hut : u = t
  · subst hut
    exact ht
  · have h := hp.2 u
    rwa [hthread, update_of_ne hut] at h

section
variable (hinv : Inv s l)
include hinv

omit [DecidableEq α] in
lemma locks_of (hthread : s'.thread = update s.thread t th')
    (hlock : ∀ p, s'.lock p = s.lock p) (hheld : th'.held = (s.thread t).held) (u : τ) (p : α) :
    s'.lock p = some u ↔ p ∈ (s'.thread u).held := by
  rw [hlock, hinv.locks u p, hthread]
  by_cases hut : u = t
  · subst hut
    rw [update_self, hheld]
  · rw [update_of_ne hut]

lemma new (ht : s.thread t = .busy op (.getNewNode prev curr)) (hp : p ∉ s.nodes.used) :
    Keeps s ((s.new p op.key).goto t (.busy op (.setNext prev curr p))) l l := by
  generalize hs' : (s.new p op.key).goto t (.busy op (.setNext prev curr p)) = s'
  have hthread : s'.thread = update s.thread t (.busy op (.setNext prev curr p)) := by
    rw [← hs']
    rfl
  have hused : s'.nodes.used = p :: s.nodes.used := by
    rw [← hs']
    rfl
  have hne : ∀ q ∈ s.nodes.used, q ≠ p := by
    rintro q hq rfl
    exact hp hq
  have hkey : ∀ q ∈ s.nodes.used, s'.nodes.key q = s.nodes.key q := by
    intro q hq
    rw [← hs']
    exact update_of_ne (hne q hq) ..
  have hsame : ∀ q ∈ s.nodes.used, s'.nodes.next q = s.nodes.next q ∧ s'.marked q = s.marked q := by
    intro q hq
    rw [← hs']
    exact ⟨update_of_ne (hne q hq) .., update_of_ne (hne q hq) ..⟩
  have hmono : ∀ q ∈ s.nodes.used, q ∈ s'.nodes.used := by
    intro q hq
    rw [hused]
    exact mem_cons_of_mem p hq
  have hins : ∀ q, Inserted s q → Inserted s' q := fun q hq =>
    inserted_of hthread hmono (fun h => hne q hq.1 (some.inj h).symm) hq
  have hback : ∀ q, Inserted s' q → Inserted s q := by
    intro q hq
    have hqp : q ≠ p := by
      rintro rfl
      refine hq.2 t ?_
      rw [hthread, update_self]
      rfl
    refine inserted_back hthread (fun h => ?_) (by simp [ht, Thread.owned, owned]) hq
    rw [hused] at h
    exact (mem_cons.mp h).resolve_left hqp
  have hmem : ∀ q ∈ l, q ∈ s.nodes.used := fun q hq => (hinv.inserted q hq).1
  have hlock : ∀ q, s'.lock q = s.lock q := by
    intro q
    rw [← hs']
    by_cases hq : q = p
    · subst hq
      refine (update_self ..).trans ?_
      cases hl : s.lock q with
      | none => rfl
      | some u => exact absurd (hinv.held_inserted ((hinv.locks u q).mp hl)).1 hp
    · exact update_of_ne hq ..
  constructor
  · refine hinv.of_step hthread hkey hmono ?_ ?_ ?_ (fun q hq => hins q (hinv.inserted q hq)) ?_ ?_
      (hinv.locks_of hthread hlock (by rw [ht]; rfl)) ?_
    · rintro u - q (hq | hq)
      · exact hsame q (hinv.held_inserted hq).1
      · exact hsame q (hinv.owned_used hq)
    · intro q hq
      obtain rfl := some.inj hq
      exact ⟨fun h => hp h.1, fun u _ hu => hp (hinv.owned_used hu)⟩
    · refine hinv.sorted.congr (by rw [← hs']; rfl) (by rw [← hs']; rfl)
        (fun q hq => hkey q (hmem q hq)) (fun q hq => (hsame q (hmem q hq)).1) ?_
      exact fun q hq => hmono q (hmem q hq)
    · intro q hq hlive
      have hq' := hback q hq
      rw [(hsame q hq'.1).2] at hlive
      exact hinv.live q hq' hlive
    · intro q hq hmax
      have hq' := hback q hq
      rw [hkey q hq'.1] at hmax
      rw [(hsame q hq'.1).1]
      exact hins _ (hinv.next q hq' hmax)
    · refine ⟨hinv.range t op _ ht, ?_⟩
      obtain ⟨hn, hlt, hop⟩ := hinv.knows t op _ ht
      have hf : Frame s s' (.getNewNode prev curr) := by
        refine ⟨hins, hkey, hmono, fun q hq => hsame q ?_⟩
        rcases hq with hq | hq
        · rcases mem_pair.mp hq with rfl | rfl
          · exact hn.prev.1
          · exact hn.curr.1
        · exact absurd hq (by simp [owned])
      obtain ⟨hn', hlt', -⟩ := hf.at_ (hinv.knows t op _ ht)
      refine ⟨hn', hlt', hop, by rw [hused]; exact mem_cons_self, ?_, ?_⟩
      · rw [← hs']
        exact update_self ..
      · rw [← hs']
        exact update_self ..
  · refine ⟨hkey, hins, fun q hq hql => ⟨hql, (hsame q hq.1).1⟩, fun q hq hq' => absurd hq hq', ?_, ?_⟩
    · intro q hq hmark
      rw [(hsame q hq.1).2] at hmark
      exact .inl hmark
    · intro q hq hmark
      rw [(hsame q hq.1).2]
      exact hmark

omit [DecidableEq τ] in
lemma content_new (hp : p ∉ s.nodes.used) {k : ℤ} : content (s.new p k) l = content s l := by
  have hne : ∀ q ∈ l, q ≠ p := by
    rintro q hq rfl
    exact hp (hinv.inserted q hq).1
  ext v
  rw [mem_content, mem_content]
  refine and_congr_left fun _ => exists_congr fun q => and_congr_right fun hq => ?_
  change update s.marked p false q = false ∧ update s.nodes.key p k q = v ↔ _
  rw [update_of_ne (hne q hq), update_of_ne (hne q hq)]

lemma writeNext {x y : α} (ht : s.thread t = .busy op loc) (hx : x ∈ held loc ∨ owned loc = some x)
    (hheld : held loc' = held loc) (howned : owned loc' = owned loc ∨ owned loc' = none)
    (hsorted : (s.setNext x y).nodes.Sorted l')
    (hmem : ∀ q ∈ l', q ∈ l ∨ owned loc' = none ∧ owned loc = some q)
    (hcut : ∀ q ∈ l, q ∉ l' → s.marked q = true)
    (hlink : ∀ q, owned loc' = none → owned loc = some q → q ∈ l')
    (hxy : owned loc' = some x ∨ Inserted s y ∨ owned loc' = none ∧ owned loc = some y)
    (hnext : ∀ q, owned loc' = none → owned loc = some q → Inserted s (s.nodes.next q))
    (hknows : At ((s.setNext x y).goto t (.busy op loc')) op loc') :
    Inv ((s.setNext x y).goto t (.busy op loc')) l' := by
  have hback : ∀ q, Inserted ((s.setNext x y).goto t (.busy op loc')) q →
      Inserted s q ∨ owned loc' = none ∧ owned loc = some q := by
    intro q hq
    by_cases hown : owned loc = some q
    · refine .inr ⟨?_, hown⟩
      rcases howned with h | h
      · refine absurd ?_ (hq.2 t)
        change (update s.thread t (.busy op loc') t).owned = some q
        rw [update_self]
        exact h.trans hown
      · exact h
    · have hthread : ((s.setNext x y).goto t (.busy op loc')).thread =
          update s.thread t (.busy op loc') := rfl
      exact .inl (inserted_back hthread (fun h => h) (by rw [ht]; exact hown) hq)
  have hins : ∀ q, Inserted s q → Inserted ((s.setNext x y).goto t (.busy op loc')) q := by
    intro q hq
    refine inserted_of rfl (fun _ => id) (fun h => ?_) hq
    have hnot := hq.2 t
    rw [ht] at hnot
    rcases howned with h' | h'
    · exact hnot (h'.symm.trans h)
    · exact absurd (h'.symm.trans h) (by simp)
  have hxu : ∀ u ≠ t, x ∉ (s.thread u).held ∧ (s.thread u).owned ≠ some x := by
    intro u hu
    rcases hx with hx | hx
    · exact hinv.exclusive (by rw [ht]; exact hx) hu
    · exact hinv.owned_exclusive (by rw [ht]; exact hx) hu
  have hnew : ∀ q, owned loc' = none → owned loc = some q →
      Inserted ((s.setNext x y).goto t (.busy op loc')) q := by
    -- The node that is linked now was made by `t` alone.
    intro q hnone hown
    have hown' : (s.thread t).owned = some q := by
      rw [ht]
      exact hown
    refine ⟨hinv.owned_used hown', fun u => ?_⟩
    change (update s.thread t (.busy op loc') u).owned ≠ some q
    by_cases hut : u = t
    · subst hut
      rw [update_self]
      intro h
      exact absurd (hnone.symm.trans h) (by simp)
    · rw [update_of_ne hut]
      exact (hinv.owned_exclusive hown' hut).2
  refine hinv.of_step rfl (fun _ _ => rfl) (fun _ => id) ?_ ?_ hsorted ?_ ?_ ?_
    (hinv.locks_of rfl (fun _ => rfl) (by rw [ht]; exact hheld)) ?_
  · intro u hu q hq
    refine ⟨update_of_ne ?_ .., rfl⟩
    rintro rfl
    rcases hq with hq | hq
    · exact (hxu u hu).1 hq
    · exact (hxu u hu).2 hq
  · intro q hq
    rcases howned with h | h
    · have hq' : (s.thread t).owned = some q := by
        rw [ht]
        exact h.symm.trans hq
      exact ⟨fun hi => hi.2 t hq', fun u hu => (hinv.owned_exclusive hq' hu).2⟩
    · exact absurd (h.symm.trans hq) (by simp)
  · intro q hq
    rcases hmem q hq with hql | ⟨hnone, hown⟩
    · exact hins q (hinv.inserted q hql)
    · exact hnew q hnone hown
  · intro q hq hlive
    rcases hback q hq with hq' | ⟨hnone, hown⟩
    · by_contra hql
      have hmark := hcut q (hinv.live q hq' hlive) hql
      rw [show s.marked q = false from hlive] at hmark
      cases hmark
    · exact hlink q hnone hown
  · intro q hq hmax
    change Inserted _ (update s.nodes.next x y q)
    by_cases hqx : q = x
    · subst hqx
      rw [update_self]
      rcases hxy with hown' | hy | ⟨hnone, hy⟩
      · refine absurd ?_ (hq.2 t)
        change (update s.thread t (.busy op loc') t).owned = some q
        rw [update_self]
        exact hown'
      · exact hins y hy
      · exact hnew y hnone hy
    · rw [update_of_ne hqx]
      rcases hback q hq with hq' | ⟨hnone, hown⟩
      · exact hins _ (hinv.next q hq' hmax)
      · exact hins _ (hnext q hnone hown)
  · exact ⟨hinv.range t op loc ht, hknows⟩

lemma setNext {newNode : α} (ht : s.thread t = .busy op (.setNext prev curr newNode)) :
    Keeps s ((s.setNext newNode curr).goto t (.busy op (.link prev curr newNode))) l l := by
  obtain ⟨hn, hlt, hop, hused, hkey, hmark⟩ := hinv.knows t op _ ht
  have hnot : ¬ Inserted s newNode := fun h => h.2 t (by rw [ht]; rfl)
  have hnext : ∀ q, Inserted s q → update s.nodes.next newNode curr q = s.nodes.next q := by
    intro q hq
    refine update_of_ne ?_ ..
    rintro rfl
    exact hnot hq
  have hins : ∀ q, Inserted s q →
      Inserted ((s.setNext newNode curr).goto t (.busy op (.link prev curr newNode))) q := by
    intro q hq
    refine inserted_of rfl (fun _ => id) (fun h => ?_) hq
    obtain rfl := some.inj h
    exact hnot hq
  constructor
  · refine hinv.writeNext ht (.inr rfl) rfl (.inl rfl) ?_ (fun q hq => .inl hq)
      (fun q hq hq' => absurd hq hq') (fun q h => absurd h (by simp [owned])) (.inl rfl)
      (fun q h => absurd h (by simp [owned])) ?_
    · exact hinv.sorted.congr rfl rfl (fun _ _ => rfl) (fun q hq => hnext q (hinv.inserted q hq))
        (fun q hq => (hinv.inserted q hq).1)
    · refine ⟨⟨⟨hins prev hn.prev, hins curr hn.curr, hn.below, hn.above⟩, hn.prevLive, ?_⟩, hlt, hop,
        hused, hkey, hmark, update_self ..⟩
      exact (hnext prev hn.prev).trans hn.next
  · exact ⟨fun _ _ => rfl, hins, fun q hq hql => ⟨hql, hnext q hq⟩, fun q hq hq' => absurd hq hq',
      fun q _ h => .inl h, fun q _ h => h⟩

lemma link {newNode : α} (ht : s.thread t = .busy op (.link prev curr newNode)) :
    ∃ l', Keeps s ((s.setNext prev newNode).goto t (.busy op (.unlockCurr prev curr (some true)))) l l' ∧
      op.key ∉ content s l ∧ content (s.setNext prev newNode) l' = insert op.key (content s l) := by
  obtain ⟨hn, hlt, hop, hused, hkey, hmark, hcurr⟩ := hinv.knows t op _ ht
  obtain ⟨hmin, hmax⟩ := hinv.range t op _ ht
  obtain ⟨zs, ws, rfl⟩ := hinv.split hn hmax
  have hnot : ¬ Inserted s newNode := fun h => h.2 t (by rw [ht]; rfl)
  have hne : newNode ≠ prev := by
    rintro rfl
    exact hnot hn.prev
  have hins : ∀ q, Inserted s q →
      Inserted ((s.setNext prev newNode).goto t (.busy op (.unlockCurr prev curr (some true)))) q :=
    fun q hq => inserted_of rfl (fun _ => id) (by simp [Thread.owned, owned]) hq
  obtain ⟨hsorted, -⟩ := hinv.sorted.link (s.setNext prev newNode).nodes ⟨hn.below, hlt⟩ rfl rfl
    (fun _ _ => rfl) hkey (update_self ..) ((update_of_ne hne ..).trans hcurr)
    (fun q _ hq => update_of_ne hq ..) (by
      intro q hq
      by_cases hqn : q = newNode
      · rw [hqn]
        exact hused
      · exact (hinv.inserted q (by simpa [hqn] using hq)).1)
  refine ⟨zs ++ prev :: newNode :: curr :: ws, ⟨hinv.writeNext ht (.inl (by simp [held])) rfl (.inr rfl)
    hsorted ?_ ?_ ?_ (.inr (.inr ⟨rfl, rfl⟩)) ?_ ?_,
    ⟨fun _ _ => rfl, hins, ?_, ?_, fun q _ h => .inl h, fun q _ h => h⟩⟩,
    gap_notMem hinv.sorted hn.below hlt, ?_⟩
  · intro q hq
    by_cases hqn : q = newNode
    · subst hqn
      exact .inr ⟨rfl, rfl⟩
    · exact .inl (by simpa [hqn] using hq)
  · intro q hq hq'
    refine absurd ?_ hq'
    simp only [mem_append, mem_cons] at hq ⊢
    tauto
  · intro q _ hq
    rw [← some.inj hq]
    simp
  · intro q _ hq
    rw [← some.inj hq, hcurr]
    exact hn.curr
  · exact ⟨hins prev hn.prev, hins curr hn.curr, hn.ne⟩
  · intro q hq hql
    constructor
    · have hqn : q ≠ newNode := by
        rintro rfl
        exact hnot hq
      simpa [hqn] using hql
    · refine update_of_ne ?_ ..
      rintro rfl
      exact hql (by simp)
  · intro q hq hq'
    refine absurd ?_ hq'
    simp only [mem_append, mem_cons] at hq ⊢
    tauto
  · ext k
    rw [Finset.mem_insert, mem_content, mem_content]
    constructor
    · rintro ⟨⟨q, hq, hlive, rfl⟩, hrange⟩
      by_cases hqn : q = newNode
      · rw [hqn]
        exact .inl hkey
      · exact .inr ⟨⟨q, by simpa [hqn] using hq, hlive, rfl⟩, hrange⟩
    · rintro (rfl | ⟨⟨q, hq, hlive, rfl⟩, hrange⟩)
      · exact ⟨⟨newNode, by simp, hmark, hkey⟩, hmin, hmax⟩
      · refine ⟨⟨q, ?_, hlive, rfl⟩, hrange⟩
        simp only [mem_append, mem_cons] at hq ⊢
        tauto

lemma unlink {next : α} (ht : s.thread t = .busy op (.unlink prev curr next)) :
    ∃ l', Keeps s ((s.setNext prev next).goto t (.busy op (.unlockCurr prev curr (some true)))) l l' ∧
      content (s.setNext prev next) l' = content s l := by
  obtain ⟨hn, hkey, hop, hmark, rfl⟩ := hinv.knows t op _ ht
  obtain ⟨hmin, hmax⟩ := hinv.range t op _ ht
  obtain ⟨zs, ws, rfl⟩ := hinv.split hn hmax
  have hlt : s.nodes.key curr < intMax := hkey.trans_lt hmax
  have hsub : ∀ q, q ∈ zs ++ prev :: ws → q ∈ zs ++ prev :: curr :: ws := by
    intro q hq
    simp only [mem_append, mem_cons] at hq ⊢
    tauto
  have hcut : ∀ q ∈ zs ++ prev :: curr :: ws, q ∉ zs ++ prev :: ws → q = curr := by
    intro q hq hq'
    simp only [mem_append, mem_cons] at hq hq'
    tauto
  have hnot : curr ∉ zs ++ prev :: ws := fun h =>
    hinv.sorted.key_notMem (mem_map_of_mem h)
  have hins : ∀ q, Inserted s q → Inserted ((s.setNext prev (s.nodes.next curr)).goto t
      (.busy op (.unlockCurr prev curr (some true)))) q :=
    fun q hq => inserted_of rfl (fun _ => id) (by simp [Thread.owned, owned]) hq
  obtain ⟨hsorted, ws', hws⟩ := hinv.sorted.unlink (s.setNext prev (s.nodes.next curr)).nodes hlt rfl rfl
    rfl (update_self ..) (fun q _ hq => update_of_ne hq ..)
    (fun q hq => (hinv.inserted q (hsub q hq)).1)
  refine ⟨zs ++ prev :: ws, ⟨hinv.writeNext ht (.inl (by simp [held])) rfl (.inl rfl) hsorted
    (fun q hq => .inl (hsub q hq)) ?_ (fun q _ h => absurd h (by simp [owned]))
    (.inr (.inl (hinv.next curr hn.curr hlt))) (fun q _ h => absurd h (by simp [owned])) ?_,
    ⟨fun _ _ => rfl, hins, ?_, ?_, fun q _ h => .inl h, fun q _ h => h⟩⟩, ?_⟩
  · intro q hq hq'
    rw [hcut q hq hq']
    exact hmark
  · exact ⟨hins prev hn.prev, hins curr hn.curr, hn.ne⟩
  · intro q hq hql
    refine ⟨fun h => hql (hsub q h), update_of_ne ?_ ..⟩
    rintro rfl
    exact hql (by simp)
  · intro q hq hq'
    obtain rfl := hcut q hq hq'
    refine ⟨hlt, update_of_ne (Ne.symm hn.ne) .., ?_⟩
    rw [hws]
    simp
  · ext k
    rw [mem_content, mem_content]
    refine and_congr_left fun _ => ?_
    constructor
    · rintro ⟨q, hq, hlive, rfl⟩
      exact ⟨q, hsub q hq, hlive, rfl⟩
    · rintro ⟨q, hq, hlive, rfl⟩
      refine ⟨q, ?_, hlive, rfl⟩
      by_contra hq'
      rw [hcut q hq hq', hmark] at hlive
      cases hlive

lemma mark (ht : s.thread t = .busy op (.mark prev curr)) :
    Keeps s ((s.setMark curr).goto t (.busy op (.readNext prev curr))) l l ∧
      op.key ∈ content s l ∧ content (s.setMark curr) l = (content s l).erase op.key := by
  obtain ⟨hn, hkey, hop, hlive⟩ := hinv.knows t op _ ht
  obtain ⟨hmin, hmax⟩ := hinv.range t op _ ht
  have hcurr : curr ∈ l := hinv.live curr hn.curr hlive
  have hins : ∀ q, Inserted ((s.setMark curr).goto t (.busy op (.readNext prev curr))) q ↔
      Inserted s q := fun q => inserted_iff rfl rfl (by rw [ht]; rfl) rfl
  have hmark : ∀ q, q ≠ curr → update s.marked curr true q = s.marked q :=
    fun q hq => update_of_ne hq ..
  refine ⟨⟨hinv.of_step rfl (fun _ _ => rfl) (fun _ => id) ?_ (by simp [Thread.owned, owned])
    hinv.sorted (fun q hq => (hins q).mpr (hinv.inserted q hq)) ?_
    (fun q hq hq' => (hins _).mpr (hinv.next q ((hins q).mp hq) hq'))
    (hinv.locks_of rfl (fun _ => rfl) (by rw [ht]; rfl)) ?_,
    ⟨fun _ _ => rfl, fun q => (hins q).mpr, fun q _ hql => ⟨hql, rfl⟩, fun q hq hq' => absurd hq hq',
      ?_, ?_⟩⟩, ?_, ?_⟩
  · intro u hu q hq
    refine ⟨rfl, hmark q ?_⟩
    rintro rfl
    obtain ⟨h1, h2⟩ := hinv.exclusive (t := t) (p := q) (by rw [ht]; simp [Thread.held, held]) hu
    exact hq.elim h1 h2
  · intro q hq hl
    have hne : q ≠ curr := by
      rintro rfl
      exact absurd ((update_self ..).symm.trans hl) (by simp)
    exact hinv.live q ((hins q).mp hq) ((hmark q hne).symm.trans hl)
  · refine ⟨⟨hmin, hmax⟩, ⟨⟨⟨(hins prev).mpr hn.prev, (hins curr).mpr hn.curr, hn.below, hn.above⟩, ?_,
      hn.next⟩, hkey, hop, update_self ..⟩⟩
    exact (hmark prev hn.ne).trans hn.prevLive
  · intro q _ hq
    by_cases hne : q = curr
    · rw [hne]
      exact .inr hcurr
    · exact .inl ((hmark q hne).symm.trans hq)
  · intro q _ hq
    by_cases hne : q = curr
    · rw [hne]
      exact update_self ..
    · exact (hmark q hne).trans hq
  · exact mem_content.mpr ⟨⟨curr, hcurr, hlive, hkey⟩, hmin, hmax⟩
  · ext k
    rw [Finset.mem_erase, mem_content, mem_content]
    constructor
    · rintro ⟨⟨q, hq, hl, rfl⟩, hrange⟩
      have hne : q ≠ curr := by
        rintro rfl
        exact absurd ((update_self ..).symm.trans hl) (by simp)
      refine ⟨fun hk => hne ?_, ⟨q, hq, (hmark q hne).symm.trans hl, rfl⟩, hrange⟩
      exact inj_on_of_nodup_map hinv.sorted.ascending.nodup_keys hq hcurr (hk.trans hkey.symm)
    · rintro ⟨hk, ⟨q, hq, hl, rfl⟩, hrange⟩
      refine ⟨⟨q, hq, (hmark q ?_).trans hl, rfl⟩, hrange⟩
      rintro rfl
      exact hk hkey

end

end Inv

end SmcPim.LazyList
