import SmcPim.Graphs.PageRank

/-! # Three buffers that change their roles -/

namespace SmcPim.Graphs.PageRank

open Engine List Function Graphs Transfer DmaRes

variable {ν : Type} {p : Params ν} {acc₀ : List ν} {nodes₀ : ℤ → ν} {ms : List Mishap} {w : World ν (List ν)} {ends : ℕ → List ℕ} {lo hi : ℤ}
  {d d' : Transfer} {s : State ν} {k j : ℕ}

/-! ## What the transfers are for -/

structure Part where
  index : ℤ
  start : ℕ
  stop : ℕ
  buf : ℕ

section
variable (p) (nodes₀)

def post : Transfer → World ν (List ν) → Prop
  | .readNodes i n b, w => ∀ j < n, w.nodeBuf b j = nodes₀ (i + j)
  | .writeNodes i n _, w => ∀ j < n, w.nodes (i + j) = p.update (nodes₀ (i + j))
  | .readWords _ _ _, _ => True

structure Holds (lo hi : ℤ) (loaded updated : List Part) (applied : List ν) (w : World ν (List ν)) : Prop where
  right : ∀ i, 0 ≤ i → i < lo → w.nodes i = p.update (nodes₀ i)
  rest : ∀ i, i < 0 ∨ hi ≤ i → w.nodes i = nodes₀ i
  loaded : ∀ q ∈ loaded, ∀ j, q.start ≤ j → j < q.stop → w.nodeBuf q.buf j = nodes₀ (q.index + j)
  updated : ∀ q ∈ updated, ∀ j, q.start ≤ j → j < q.stop → w.nodeBuf q.buf j = p.update (nodes₀ (q.index + j))
  applied : w.acc = applied

end

def Fits (lo hi : ℤ) (loaded updated : List Part) : Transfer → Prop
  | .readNodes i _ b => hi ≤ i ∧ ∀ q ∈ loaded ++ updated, q.buf ≠ b
  | .writeNodes i n b => ⟨i, 0, n, b⟩ ∈ updated ∧ 0 ≤ i ∧ lo ≤ i ∧ i + n ≤ hi
  | .readWords _ _ _ => True

variable {loaded updated : List Part} {applied : List ν}

lemma Holds.effect (h : Holds p nodes₀ lo hi loaded updated applied w)
    (hd : Fits lo hi loaded updated d) :
    Holds p nodes₀ lo hi loaded updated applied (effect d w) := by
  cases d with
  | readNodes i n b =>
    obtain ⟨-, hbuf⟩ := hd
    refine ⟨h.right, h.rest, fun q hq j => ?_, fun q hq j => ?_, h.applied⟩
    · have hne := hbuf q (mem_append_left _ hq)
      simp only [effect, update_of_ne hne]
      exact h.loaded q hq j
    · have hne := hbuf q (mem_append_right _ hq)
      simp only [effect, update_of_ne hne]
      exact h.updated q hq j
  | writeNodes i n b =>
    obtain ⟨hmem, hpos, hlo, hhi⟩ := hd
    refine ⟨fun j hj hlt => ?_, fun j hj => ?_, h.loaded, h.updated, h.applied⟩
    · simp only [effect]
      rw [if_neg (by omega)]
      exact h.right j hj hlt
    · simp only [effect]
      rw [if_neg (by omega)]
      exact h.rest j hj
  | readWords f n b => exact { h with }

variable {n b r pos : ℕ} {l : List (DmaRes × Transfer)}

lemma Holds.write_nodes (h : Holds p nodes₀ lo hi loaded updated applied w) {i : ℤ}
    (hmem : ⟨i, 0, n, b⟩ ∈ updated) (j : ℤ) :
    (Graphs.effect (.writeNodes i n b) w).nodes j =
      if i ≤ j ∧ j < i + n then p.update (nodes₀ j) else w.nodes j := by
  simp only [Graphs.effect]
  split
  · rename_i hj
    have hvalue := h.updated _ hmem (j - i).toNat (Nat.zero_le _) (by dsimp only; omega)
    have hindex : i + ((j - i).toNat : ℤ) = j := by omega
    dsimp only at hvalue
    rw [hvalue, hindex]
  · rfl

lemma stable (hfits : ∀ x ∈ l, Fits lo hi loaded updated x.2)
    (hbufs : ∀ x ∈ l, ∀ y ∈ l, y ≠ x → x.2.buf ≠ y.2.buf) :
    Stable (engine ends) (post p nodes₀) (Holds p nodes₀ lo hi loaded updated applied) l := by
  refine ⟨fun x hx w hw => hw.effect (hfits x hx), ?_, ?_⟩
  · rintro ⟨res, d⟩ hx w hw
    have hfit := hfits _ hx
    cases d with
    | readNodes i n b =>
      intro j hj
      simp only [engine, Graphs.effect, update_self]
      rw [fill_of_lt hj]
      exact hw.rest _ (.inr (by have := hfit.1; omega))
    | writeNodes i n b =>
      intro j hj
      refine (hw.write_nodes hfit.1 _).trans (if_pos ⟨by omega, by omega⟩)
    | readWords f n b => trivial
  · rintro ⟨res, d⟩ hx ⟨res', d'⟩ hy hne w hw hpost
    have hfit := hfits _ hy
    have hbuf := hbufs _ hx _ hy hne
    cases d with
    | readNodes i n b =>
      cases d' with
      | readNodes i' n' b' =>
        intro j hj
        have hb : b ≠ b' := hbuf
        simp only [engine, effect, update_of_ne hb]
        exact hpost j hj
      | writeNodes i' n' b' | readWords f' n' b' => exact hpost
    | writeNodes i n b =>
      cases d' with
      | readNodes i' n' b' => exact hpost
      | writeNodes i' n' b' =>
        intro j hj
        refine (hw.write_nodes hfit.1 _).trans ?_
        split
        · rfl
        · exact hpost j hj
      | readWords f' n' b' => exact hpost
    | readWords f n b => trivial

/-! ## Chunk by chunk -/

section
variable (p)

def offset (k : ℕ) : ℤ := (k * p.nodesCount : ℕ)

def leaving (b : ℕ) : ℕ → List (DmaRes × Transfer)
  | 0 => []
  | k + 1 => [(.res1, .writeNodes (offset p k) p.nodesCount b)]

def leavingPart (b : ℕ) : ℕ → List Part
  | 0 => []
  | k + 1 => [⟨offset p k, 0, p.nodesCount, b⟩]

def outstanding (r b k : ℕ) : List (DmaRes × Transfer) :=
  (.res0, .readNodes (offset p (k + 1)) p.nodesCount r) :: leaving p b k

end

def firsts (acc₀ : List ν) (nodes₀ : ℤ → ν) (n : ℕ) : List ν := acc₀ ++ (List.range n).map fun i : ℕ => nodes₀ i

structure Distinct (s : State ν) : Prop where
  rp : s.nodesR ≠ s.nodesP
  rw : s.nodesR ≠ s.nodesW
  pw : s.nodesP ≠ s.nodesW

structure Arrived (p : Params ν) (acc₀ : List ν) (nodes₀ : ℤ → ν) (ms : List Mishap) (k : ℕ) (s : State ν) : Prop where
  distinct : Distinct s
  first : s.first = decide (k = 0)
  awaits : Awaits (post p nodes₀)
    (Holds p nodes₀ (offset p k - p.nodesCount) (offset p k) [⟨offset p k, 0, p.nodesCount, s.nodesR⟩]
      (leavingPart p s.nodesP k) (firsts acc₀ nodes₀ (k * p.nodesCount)))
    [] s.machine
  calm : s.machine.mishaps = ms

structure During (p : Params ν) (acc₀ : List ν) (nodes₀ : ℤ → ν) (ms : List Mishap) (k pos : ℕ) (s : State ν) : Prop where
  distinct : Distinct s
  first : s.first = false
  awaits : Awaits (post p nodes₀)
    (Holds p nodes₀ (offset p k - p.nodesCount) (offset p k) [⟨offset p k, pos, p.nodesCount, s.nodesP⟩]
      (⟨offset p k, 0, pos, s.nodesP⟩ :: leavingPart p s.nodesW k) (firsts acc₀ nodes₀ (k * p.nodesCount + pos)))
    (outstanding p s.nodesR s.nodesW k) s.machine
  calm : s.machine.mishaps = ms

lemma offset_succ (k : ℕ) : offset p (k + 1) = offset p k + p.nodesCount := by
  unfold offset
  push_cast
  ring

lemma offset_nonneg (k : ℕ) : 0 ≤ offset p k := Int.natCast_nonneg _

lemma mem_leaving {x : DmaRes × Transfer} (hx : x ∈ leaving p b k) :
    ∃ k', k = k' + 1 ∧ x = (.res1, .writeNodes (offset p k') p.nodesCount b) := by
  cases k with
  | zero => exact absurd hx not_mem_nil
  | succ k => exact ⟨k, rfl, mem_singleton.mp hx⟩

lemma mem_leavingPart {q : Part} (hq : q ∈ leavingPart p b k) : q.buf = b := by
  cases k with
  | zero => exact absurd hq not_mem_nil
  | succ k => rw [mem_singleton.mp hq]

lemma apart_outstanding (hrb : r ≠ b) :
    Apart (engine (ν := ν) (α := List ν) ends) (outstanding p r b k) := by
  constructor
  · intro x hx y hy hxy
    rcases mem_cons.mp hx with rfl | hx <;> rcases mem_cons.mp hy with rfl | hy
    · rfl
    · obtain ⟨k', -, rfl⟩ := mem_leaving hy
      cases hxy
    · obtain ⟨k', -, rfl⟩ := mem_leaving hx
      cases hxy
    · obtain ⟨k', rfl, rfl⟩ := mem_leaving hx
      exact (mem_singleton.mp hy).symm
  · intro x hx y hy hxy
    rcases mem_cons.mp hx with rfl | hx <;> rcases mem_cons.mp hy with rfl | hy
    · exact absurd rfl hxy
    · obtain ⟨k', -, rfl⟩ := mem_leaving hy
      simpa [engine, buf] using hrb
    · obtain ⟨k', -, rfl⟩ := mem_leaving hx
      simpa [engine, buf] using hrb.symm
    · obtain ⟨k', rfl, rfl⟩ := mem_leaving hx
      exact absurd (mem_singleton.mp hy).symm hxy

lemma bufs_ne_of_apart (h : Apart (engine (ν := ν) (α := List ν) ends) l) :
    ∀ x ∈ l, ∀ y ∈ l, y ≠ x → x.2.buf ≠ y.2.buf := by
  intro x hx y hy hyx
  have hmeets := h.places x hx y hy hyx.symm
  simpa [engine] using hmeets

lemma stable_outstanding {loaded updated : List Part} {applied : List ν}
    (hrb : r ≠ b) (hr : ∀ q ∈ loaded ++ updated, q.buf ≠ r) (hupdated : leavingPart p b k ⊆ updated) :
    Stable (engine ends) (post p nodes₀)
      (Holds p nodes₀ (offset p k - p.nodesCount) (offset p k) loaded updated applied) (outstanding p r b k) := by
  have hapart : Apart (engine (ν := ν) (α := List ν) ends) (outstanding p r b k) := apart_outstanding hrb
  refine stable (fun x hx => ?_) (bufs_ne_of_apart hapart)
  rcases mem_cons.mp hx with rfl | hx
  · refine ⟨?_, hr⟩
    rw [offset_succ]
    omega
  · obtain ⟨k', rfl, rfl⟩ := mem_leaving hx
    have hsucc := offset_succ (p := p) k'
    refine ⟨hupdated (mem_singleton.mpr rfl), offset_nonneg k', ?_, ?_⟩
    · omega
    · omega

/-! ## One record -/

lemma updateRecord_nodeBuf_of_ne {b' i : ℕ} (hb : b' ≠ b) :
    (updateRecord p b i w).nodeBuf b' = w.nodeBuf b' :=
  update_of_ne hb ..

lemma updateRecord_nodeBuf {i : ℕ} :
    (updateRecord p b i w).nodeBuf b j = if j = i then p.update (w.nodeBuf b i) else w.nodeBuf b j := by
  unfold updateRecord
  dsimp only
  rw [update_self, update_apply]

lemma firsts_succ (n : ℕ) : firsts acc₀ nodes₀ (n + 1) = firsts acc₀ nodes₀ n ++ [nodes₀ n] := by
  unfold firsts
  rw [range_succ, map_append, append_assoc]
  rfl

lemma Holds.updateRecord {i : ℤ} {others : List Part}
    (h : Holds p nodes₀ lo hi [⟨i, pos, n, b⟩] (⟨i, 0, pos, b⟩ :: others) applied w) (hpos : pos < n)
    (hothers : ∀ q ∈ others, q.buf ≠ b) :
    Holds p nodes₀ lo hi [⟨i, pos + 1, n, b⟩] (⟨i, 0, pos + 1, b⟩ :: others) (applied ++ [nodes₀ (i + pos)])
      (updateRecord p b pos w) := by
  have hrecord : w.nodeBuf b pos = nodes₀ (i + pos) := h.loaded _ mem_cons_self pos le_rfl hpos
  refine ⟨h.right, h.rest, ?_, ?_, ?_⟩
  · intro q hq j hj hlt
    rw [mem_singleton.mp hq] at hj hlt ⊢
    dsimp only at hj hlt ⊢
    rw [updateRecord_nodeBuf, if_neg (by omega)]
    exact h.loaded _ mem_cons_self j (by dsimp only; omega) hlt
  · intro q hq j hj hlt
    rcases mem_cons.mp hq with rfl | hq
    · dsimp only at hj hlt ⊢
      rw [updateRecord_nodeBuf]
      split
      · rename_i heq
        rw [heq, hrecord]
      · exact h.updated _ mem_cons_self j hj (by dsimp only; omega)
    · rw [updateRecord_nodeBuf_of_ne (hothers q hq)]
      exact h.updated q (mem_cons_of_mem _ hq) j hj hlt
  · change w.acc ++ [w.nodeBuf b pos] = _
    rw [h.applied, hrecord]

abbrev Updating (p : Params ν) (acc₀ : List ν) (nodes₀ : ℤ → ν) (k pos P W : ℕ) : World ν (List ν) → Prop :=
  Holds p nodes₀ (offset p k - p.nodesCount) (offset p k) [⟨offset p k, pos, p.nodesCount, P⟩]
    (⟨offset p k, 0, pos, P⟩ :: leavingPart p W k) (firsts acc₀ nodes₀ (k * p.nodesCount + pos))

lemma stable_updating {R P W : ℕ} (hrp : R ≠ P) (hrw : R ≠ W) (acc₀ : List ν) (nodes₀ : ℤ → ν)
    (ends : ℕ → List ℕ) :
    Stable (engine ends) (post p nodes₀) (Updating p acc₀ nodes₀ k pos P W) (outstanding p R W k) := by
  refine stable_outstanding hrw (fun q hq => ?_) (subset_cons_self ..)
  rw [singleton_append] at hq
  rcases mem_cons.mp hq with rfl | hq
  · exact hrp.symm
  · rcases mem_cons.mp hq with rfl | hq
    · exact hrp.symm
    · rw [mem_leavingPart hq]
      exact hrw.symm

lemma During.stable (h : During p acc₀ nodes₀ ms k pos s) (ends : ℕ → List ℕ) :
    Stable (engine ends) (post p nodes₀) (Updating p acc₀ nodes₀ k pos s.nodesP s.nodesW)
      (outstanding p s.nodesR s.nodesW k) :=
  stable_updating h.distinct.rp h.distinct.rw acc₀ nodes₀ ends

lemma During.process (h : During p acc₀ nodes₀ ms k pos s) (hpos : pos < p.nodesCount) :
    During p acc₀ nodes₀ ms k (pos + 1) (process p ends pos s) := by
  obtain ⟨hrp, hrw, hpw⟩ := h.distinct
  unfold PageRank.process
  refine ⟨⟨hrp, hrw, hpw⟩, h.first, ?_, ?_⟩
  · dsimp only
    refine h.awaits.act (h.stable ends) (fun w hw => ?_) fun x hx w _ hpost => ?_
    · have hnext := hw.updateRecord hpos fun q hq => by
        rw [mem_leavingPart hq]
        exact hpw.symm
      have hindex : offset p k + pos = ((k * p.nodesCount + pos : ℕ) : ℤ) := by
        unfold offset
        push_cast
        rfl
      rw [hindex, ← firsts_succ] at hnext
      exact hnext
    · rcases mem_cons.mp hx with rfl | hx
      · intro j hj
        rw [updateRecord_nodeBuf_of_ne hrp]
        exact hpost j hj
      · obtain ⟨k', -, rfl⟩ := mem_leaving hx
        exact hpost
  · refine (h.awaits.act_calm (h.stable ends) _ fun x hx => ?_).trans h.calm
    rcases mem_cons.mp hx with rfl | hx
    · simpa [buf] using hrp
    · obtain ⟨k', -, rfl⟩ := mem_leaving hx
      simpa [buf] using hpw.symm

lemma During.wait (h : During p acc₀ nodes₀ ms k p.nodesCount s) :
    Arrived p acc₀ nodes₀ ms (k + 1) { s with machine := (engine ends).wait [.res0, .res1] s.machine } := by
  obtain ⟨hrp, hrw, hpw⟩ := h.distinct
  have hwait := h.awaits.wait (h.stable ends) [.res0, .res1]
  have hfilter : (outstanding p s.nodesR s.nodesW k).filter (fun x => x.1 ∉ [res0, .res1]) = [] := by
    refine filter_eq_nil_iff.mpr fun x hx => ?_
    rcases mem_cons.mp hx with rfl | hx
    · simp
    · obtain ⟨k', -, rfl⟩ := mem_leaving hx
      simp
  rw [hfilter] at hwait
  refine ⟨⟨hrp, hrw, hpw⟩, h.first, hwait.mono ?_, (wait_mishaps _ _).trans h.calm⟩
  rintro w ⟨hw, hpost⟩
  have hsucc := offset_succ (p := p) k
  refine ⟨fun i hi hlt => ?_, fun i hi => hw.rest i (by omega), ?_, ?_, ?_⟩
  · by_cases hold : i < offset p k - p.nodesCount
    · exact hw.right i hi hold
    · cases k with
      | zero => simp [offset] at hlt; omega
      | succ k' =>
        have hsucc' := offset_succ (p := p) k'
        have hwrite := hpost (.res1, .writeNodes (offset p k') p.nodesCount s.nodesW)
          (mem_cons_of_mem _ (mem_singleton.mpr rfl)) (by simp) (i - offset p k').toNat (by omega)
        have hindex : offset p k' + ((i - offset p k').toNat : ℤ) = i := by omega
        rwa [hindex] at hwrite
  · intro q hq j _ hj
    rw [mem_singleton.mp hq] at hj ⊢
    exact hpost _ mem_cons_self (by simp) j hj
  · intro q hq j hj hlt
    rw [mem_singleton.mp hq] at hj hlt ⊢
    exact hw.updated _ mem_cons_self j hj hlt
  · rw [hw.applied, Nat.succ_mul]

lemma Arrived.turn
    (h : Arrived p acc₀ nodes₀ ms k { s with machine := (engine ends).wait [.res0, .res1] s.machine }) :
    During p acc₀ nodes₀ ms k 0 (turn p ends (k * p.nodesCount) s) := by
  obtain ⟨hrp, hrw, hpw⟩ := h.distinct
  have hfirst := h.first
  have hawaits := h.awaits
  have hcalm := h.calm
  unfold PageRank.turn State.rotate
  dsimp only at hrp hrw hpw hfirst hawaits hcalm ⊢
  generalize (engine ends).wait [.res0, .res1] s.machine = m at hawaits hcalm
  have hstart : Awaits (post p nodes₀) (Updating p acc₀ nodes₀ k 0 s.nodesR s.nodesP) [] m :=
    hawaits.mono fun w hw => ⟨hw.right, hw.rest, hw.loaded, by
      intro q hq j hj hlt
      rcases mem_cons.mp hq with rfl | hq
      · exact absurd hlt (Nat.not_lt_zero j)
      · exact hw.updated q hq j hj hlt, hw.applied⟩
  have hstable : Stable (engine ends) (post p nodes₀) (Updating p acc₀ nodes₀ k 0 s.nodesR s.nodesP)
      (outstanding p s.nodesW s.nodesP k) := stable_updating hrw.symm hpw.symm acc₀ nodes₀ ends
  have hapart : Apart (engine (ν := ν) (α := List ν) ends) (outstanding p s.nodesW s.nodesP k) :=
    apart_outstanding hpw.symm
  have hindex : ((k * p.nodesCount : ℕ) : ℤ) + p.nodesCount = offset p (k + 1) := (offset_succ k).symm
  have hread := hstart.request (r := .res0) (d := .readNodes (offset p (k + 1)) p.nodesCount s.nodesW)
    (hstable.mono (nil_subset _)) not_mem_nil
  have hreadCalm := (hstart.request_calm (r := .res0) (d := .readNodes (offset p (k + 1)) p.nodesCount s.nodesW)
    (hstable.mono (nil_subset _)) not_mem_nil (hapart.mono (by simp [outstanding]))).trans hcalm
  rw [hindex]
  cases k with
  | zero =>
    rw [hfirst]
    exact ⟨⟨hrw.symm, hpw.symm, hrp⟩, rfl, hread, hreadCalm⟩
  | succ k' =>
    have hwriteIndex : (((k' + 1) * p.nodesCount : ℕ) : ℤ) - p.nodesCount = offset p k' := by
      have := offset_succ (p := p) k'
      unfold offset at *
      omega
    rw [hfirst, hwriteIndex]
    have hnew : (res1, writeNodes (offset p k') p.nodesCount s.nodesP) ∉
        [] ++ [(res0, readNodes (offset p (k' + 1 + 1)) p.nodesCount s.nodesW)] := by
      simp
    have hone : Stable (engine ends) (post p nodes₀) (Updating p acc₀ nodes₀ (k' + 1) 0 s.nodesR s.nodesP)
        ([] ++ [(res0, readNodes (offset p (k' + 1 + 1)) p.nodesCount s.nodesW)]) :=
      hstable.mono (by simp [outstanding])
    exact ⟨⟨hrw.symm, hpw.symm, hrp⟩, rfl, hread.request hone hnew,
      (hread.request_calm hone hnew (hapart.mono (by simp [outstanding, leaving]))).trans hreadCalm⟩

/-! ## The start -/

def Quiet (m : Machine (World ν (List ν)) DmaRes Transfer) : Prop := ∀ x ∈ m.pending, x.1 = .res0 ∧ x.2.IsRead

lemma effect_of_isRead {d : Transfer} (hd : d.IsRead) (w : World ν (List ν)) :
    (effect d w).nodes = w.nodes ∧ (effect d w).acc = w.acc := by
  cases d with
  | readNodes i n b => exact ⟨rfl, rfl⟩
  | writeNodes i n b => exact absurd hd id
  | readWords f n b => exact ⟨rfl, rfl⟩

lemma Quiet.wait {m : Machine (World ν (List ν)) DmaRes Transfer} (h : Quiet m) (ends : ℕ → List ℕ) :
    ((engine ends).wait [.res0] m).world.nodes = m.world.nodes ∧ ((engine ends).wait [.res0] m).world.acc = m.world.acc ∧
      ((engine ends).wait [.res0] m).pending = [] := by
  have hwait := wait_inv (E := engine ends) (m := m) [res0]
    (fun w l => (w.nodes = m.world.nodes ∧ w.acc = m.world.acc) ∧ ∀ x ∈ l, x.1 = res0 ∧ x.2.IsRead)
    (by
      rintro w l x l' - ⟨⟨hnodes, hacc⟩, hread⟩
      obtain ⟨hnodes', hacc'⟩ := effect_of_isRead (hread x (by simp)).2 w
      exact ⟨⟨hnodes'.trans hnodes, hacc'.trans hacc⟩, fun y hy => hread y (by
        simp only [mem_append, mem_cons] at hy ⊢
        tauto)⟩) ⟨⟨rfl, rfl⟩, h⟩
  refine ⟨hwait.1.1, hwait.1.2, eq_nil_iff_forall_not_mem.mpr fun x hx => ?_⟩
  exact wait_pending hx (by rw [(hwait.2 x hx).1]; simp)

structure Begun (p : Params ν) (acc₀ : List ν) (nodes₀ : ℤ → ν) (ms : List Mishap) (s : State ν) : Prop where
  distinct : Distinct s
  first : s.first = true
  awaits : Awaits (post p nodes₀) (Holds p nodes₀ (0 - p.nodesCount) 0 [] [] (firsts acc₀ nodes₀ 0))
    [(.res0, .readNodes 0 p.nodesCount s.nodesR)] s.machine
  calm : s.machine.mishaps = ms

lemma stable_begun (acc₀ : List ν) (nodes₀ : ℤ → ν) (ends : ℕ → List ℕ) :
    Stable (engine ends) (post p nodes₀) (Holds p nodes₀ (0 - p.nodesCount) 0 [] [] (firsts acc₀ nodes₀ 0))
      [(res0, .readNodes 0 p.nodesCount r)] := by
  refine stable (fun x hx => ?_) (by simp)
  rw [mem_singleton.mp hx]
  exact ⟨le_rfl, by simp⟩

lemma secondStart_begun (hs : Distinct s) (hquiet : Quiet s.machine) :
    Begun p s.machine.world.acc s.machine.world.nodes s.machine.mishaps (secondStart p ends s) := by
  obtain ⟨hnodes, hacc, hpending⟩ := hquiet.wait ends
  have hstable := stable_begun (p := p) (r := s.nodesR) s.machine.world.acc s.machine.world.nodes ends
  have hstart : Awaits (post p s.machine.world.nodes) (Holds p s.machine.world.nodes (0 - p.nodesCount) 0 [] []
      (firsts s.machine.world.acc s.machine.world.nodes 0)) [] ((engine ends).wait [.res0] s.machine) := by
    refine .start ⟨fun i hi hlt => by omega, fun i _ => by rw [hnodes], by simp, by simp, ?_⟩ hpending
    rw [hacc]
    simp [firsts]
  refine ⟨{ hs with }, rfl, hstart.request (hstable.mono (nil_subset _)) not_mem_nil, ?_⟩
  refine (hstart.request_calm (hstable.mono (nil_subset _)) not_mem_nil ⟨by simp, by simp⟩).trans ?_
  exact wait_mishaps _ _

lemma Begun.wait (h : Begun p acc₀ nodes₀ ms s) :
    Arrived p acc₀ nodes₀ ms 0 { s with machine := (engine ends).wait [.res0, .res1] s.machine } := by
  have hwait := h.awaits.wait (stable_begun acc₀ nodes₀ ends) [.res0, .res1]
  refine ⟨⟨h.distinct.rp, h.distinct.rw, h.distinct.pw⟩, h.first, hwait.mono ?_, (wait_mishaps _ _).trans h.calm⟩
  rintro w ⟨hw, hpost⟩
  have hzero : offset p 0 = 0 := by simp [offset]
  rw [hzero, zero_mul]
  refine { hw with loaded := (fun q hq j _ hj => ?_), updated := by simp [leavingPart] }
  rw [mem_singleton.mp hq] at hj ⊢
  exact hpost _ mem_cons_self (by simp) j hj

end SmcPim.Graphs.PageRank
