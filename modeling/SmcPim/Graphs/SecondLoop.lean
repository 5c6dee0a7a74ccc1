import SmcPim.Graphs.TripleBuffer

/-! # Every node once -/

namespace SmcPim.Graphs.PageRank

open Engine List Nat

variable {ν : Type} {p : Params ν} {acc₀ : List ν} {nodes₀ : ℤ → ν} {ms : List Mishap} {ends : ℕ → List ℕ} {s : State ν} {k i pos : ℕ}

inductive BeforeNode (p : Params ν) (acc₀ : List ν) (nodes₀ : ℤ → ν) (ms : List Mishap) (i : ℕ) (s : State ν) : Prop
  | begun : i = 0 → s.rr = p.nodesCount → Begun p acc₀ nodes₀ ms s → BeforeNode p acc₀ nodes₀ ms i s
  | during (k : ℕ) : 0 < s.rr → s.rr ≤ p.nodesCount → i = k * p.nodesCount + s.rr → During p acc₀ nodes₀ ms k s.rr s →
    BeforeNode p acc₀ nodes₀ ms i s

lemma During.with_rr (h : During p acc₀ nodes₀ ms k pos s) (rr : ℕ) :
    During p acc₀ nodes₀ ms k pos { s with rr := rr } :=
  ⟨⟨h.distinct.rp, h.distinct.rw, h.distinct.pw⟩, h.first, h.awaits, h.calm⟩

lemma BeforeNode.node (h : BeforeNode p acc₀ nodes₀ ms i s) (hcount : 0 < p.nodesCount) :
    BeforeNode p acc₀ nodes₀ ms (i + 1) (secondNode p ends i s) := by
  have hnext : ∀ k, i = k * p.nodesCount → s.rr = p.nodesCount → During p acc₀ nodes₀ ms k 0 (turn p ends i s) →
      BeforeNode p acc₀ nodes₀ ms (i + 1) (secondNode p ends i s) := by
    intro k hi hrr hturn
    unfold secondNode
    rw [if_pos hrr]
    exact .during k one_pos hcount (by dsimp only; omega) (((hturn.with_rr 0).process hcount).with_rr 1)
  cases h with
  | begun hi hrr hbegun =>
    subst hi
    refine hnext 0 (by omega) hrr ?_
    have hturn : During p acc₀ nodes₀ ms 0 0 (turn p ends (0 * p.nodesCount) s) := hbegun.wait.turn
    rwa [zero_mul] at hturn
  | during k _ hle hi hduring =>
    by_cases hrr : s.rr = p.nodesCount
    · rw [hrr] at hi hduring
      refine hnext (k + 1) (by rw [succ_mul]; exact hi) hrr ?_
      have hturn : During p acc₀ nodes₀ ms (k + 1) 0 (turn p ends ((k + 1) * p.nodesCount) s) := hduring.wait.turn
      rwa [succ_mul, ← hi] at hturn
    · unfold secondNode
      rw [if_neg hrr]
      have hlt : s.rr < p.nodesCount := lt_of_le_of_ne hle hrr
      exact .during k (succ_pos _) hlt (by dsimp only; omega) ((hduring.process hlt).with_rr (s.rr + 1))

/-! ## The end -/

structure Updated (p : Params ν) (acc₀ : List ν) (nodes₀ : ℤ → ν) (m : Machine (World ν (List ν)) DmaRes Transfer) :
    Prop where
  nodes : ∀ i, m.world.nodes i = if 0 ≤ i ∧ i < p.nodes then p.update (nodes₀ i) else nodes₀ i
  applied : m.world.acc = firsts acc₀ nodes₀ p.nodes
  pending : m.pending = []

variable {R P W : ℕ}

lemma outstanding_buf_ne (hrp : R ≠ P) (hpw : P ≠ W) {x : DmaRes × Transfer}
    (hx : x ∈ outstanding p R W k) : x.2.buf ≠ P := by
  rcases mem_cons.mp hx with rfl | hx
  · exact hrp
  · obtain ⟨k', -, rfl⟩ := mem_leaving hx
    exact hpw.symm

lemma stable_end (hrp : R ≠ P) (hrw : R ≠ W) (hpw : P ≠ W) (hpos : pos ≤ p.nodesCount)
    (applied : List ν) (nodes₀ : ℤ → ν) (ends : ℕ → List ℕ) (k : ℕ) :
    Stable (engine ends) (post p nodes₀)
      (Holds p nodes₀ (offset p k - p.nodesCount) (offset p k + pos) []
        (⟨offset p k, 0, pos, P⟩ :: leavingPart p W k) applied)
      (outstanding p R W k ++ [(.res1, .writeNodes (offset p k) pos P)]) := by
  have hsucc := offset_succ (p := p) k
  have hapart : Apart (engine (ν := ν) (α := List ν) ends) (outstanding p R W k) := apart_outstanding hrw
  refine stable (fun x hx => ?_) fun x hx y hy hyx => ?_
  · rcases mem_append.mp hx with hx | hx
    · rcases mem_cons.mp hx with rfl | hx
      · refine ⟨by omega, fun q hq => ?_⟩
        rcases mem_cons.mp hq with rfl | hq
        · exact hrp.symm
        · rw [mem_leavingPart hq]
          exact hrw.symm
      · obtain ⟨k', rfl, rfl⟩ := mem_leaving hx
        have hsucc' := offset_succ (p := p) k'
        exact ⟨mem_cons_of_mem _ (mem_singleton.mpr rfl), offset_nonneg k', by omega, by omega⟩
    · rw [mem_singleton.mp hx]
      exact ⟨mem_cons_self, offset_nonneg k, by omega, le_rfl⟩
  · rcases mem_append.mp hx with hx | hx <;> rcases mem_append.mp hy with hy | hy
    · exact bufs_ne_of_apart hapart x hx y hy hyx
    · rw [mem_singleton.mp hy]
      exact outstanding_buf_ne hrp hpw hx
    · rw [mem_singleton.mp hx]
      exact (outstanding_buf_ne hrp hpw hy).symm
    · rw [mem_singleton.mp hx, mem_singleton.mp hy] at hyx
      exact absurd rfl hyx

lemma Holds.all_updated {applied : List ν} {w : World ν (List ν)}
    (h : Holds p nodes₀ (offset p k - p.nodesCount) (offset p k + pos) []
      (⟨offset p k, 0, pos, P⟩ :: leavingPart p W k) applied w)
    (hpost : ∀ x ∈ outstanding p R W k ++ [(.res1, .writeNodes (offset p k) pos P)], post p nodes₀ x.2 w)
    (hnodes : p.nodes = k * p.nodesCount + pos) (i : ℤ) :
    w.nodes i = if 0 ≤ i ∧ i < p.nodes then p.update (nodes₀ i) else nodes₀ i := by
  have hend : (p.nodes : ℤ) = offset p k + pos := by
    unfold offset
    omega
  split
  · rename_i hi
    rcases lt_or_ge i (offset p k) with hlt | hge
    · by_cases hold : i < offset p k - p.nodesCount
      · exact h.right i hi.1 hold
      · cases k with
        | zero => simp [offset] at hlt; omega
        | succ k' =>
          have hsucc := offset_succ (p := p) k'
          have hwrite := hpost (.res1, .writeNodes (offset p k') p.nodesCount W)
            (mem_append_left _ (mem_cons_of_mem _ (mem_singleton.mpr rfl))) (i - offset p k').toNat (by omega)
          have hindex : offset p k' + ((i - offset p k').toNat : ℤ) = i := by omega
          rwa [hindex] at hwrite
    · have hwrite := hpost _ (mem_append_right _ (mem_singleton.mpr rfl)) (i - offset p k).toNat (by omega)
      have hindex : offset p k + ((i - offset p k).toNat : ℤ) = i := by omega
      rwa [hindex] at hwrite
  · exact h.rest i (by omega)

lemma During.end (h : During p acc₀ nodes₀ ms k pos s) (hpos : pos ≤ p.nodesCount) (hrr : s.rr = pos)
    (hnodes : p.nodes = k * p.nodesCount + pos) :
    Updated p acc₀ nodes₀ (secondEnd p ends s).machine ∧ (k = 0 → (secondEnd p ends s).machine.mishaps = ms) := by
  obtain ⟨hrp, hrw, hpw⟩ := h.distinct
  have hindex : (p.nodes : ℤ) - s.rr = offset p k := by
    unfold offset
    omega
  have hstable := stable_end hrp hrw hpw hpos (firsts acc₀ nodes₀ p.nodes) nodes₀ ends k
  have hold : Stable (engine ends) (post p nodes₀) _ (outstanding p s.nodesR s.nodesW k) :=
    hstable.mono (subset_append_left ..)
  have hlast : Awaits (post p nodes₀) (Holds p nodes₀ (offset p k - p.nodesCount) (offset p k + pos) []
      (⟨offset p k, 0, pos, s.nodesP⟩ :: leavingPart p s.nodesW k) (firsts acc₀ nodes₀ p.nodes))
      (outstanding p s.nodesR s.nodesW k) s.machine := by
    rw [hnodes]
    exact h.awaits.mono fun w hw => { hw with rest := (fun i hi => hw.rest i (by omega)), loaded := by simp }
  have hnew : (DmaRes.res1, Transfer.writeNodes (offset p k) pos s.nodesP) ∉ outstanding p s.nodesR s.nodesW k :=
    fun hmem => outstanding_buf_ne hrp hpw hmem rfl
  have hwait := (hlast.request hold hnew).wait hstable [.res0, .res1]
  have hall : ∀ x ∈ outstanding p s.nodesR s.nodesW k ++ [(.res1, .writeNodes (offset p k) pos s.nodesP)],
      x.1 ∈ [DmaRes.res0, .res1] := by
    intro x hx
    rcases mem_append.mp hx with hx | hx
    · rcases mem_cons.mp hx with rfl | hx
      · simp
      · obtain ⟨k', -, rfl⟩ := mem_leaving hx
        simp
    · rw [mem_singleton.mp hx]
      simp
  unfold secondEnd State.rotate
  dsimp only
  rw [hindex, hrr]
  refine ⟨⟨fun i => ?_, hwait.inv.1.applied, ?_⟩, fun hk => ?_⟩
  · exact hwait.inv.1.all_updated (fun x hx => hwait.inv.2 x hx (hall x hx)) hnodes i
  · refine eq_nil_iff_forall_not_mem.mpr fun x hx => ?_
    exact wait_pending hx (hall x (mem_of_mem_filter (hwait.known x hx)))
  · refine (wait_mishaps _ _).trans ((hlast.request_calm hold hnew ?_).trans h.calm)
    subst hk
    constructor
    · simp [outstanding, leaving]
    · have hmeets : s.nodesP ≠ s.nodesR := hrp.symm
      simp [outstanding, leaving, engine, Transfer.buf, hrp, hmeets]

/-! ## `kernel_dma2` and `kernel_best` -/

lemma secondLoop_spec (hs : Distinct s) (hquiet : Quiet s.machine) (hnodes : 0 < p.nodes)
    (hcount : 0 < p.nodesCount) (ends : ℕ → List ℕ) :
    Updated p s.machine.world.acc s.machine.world.nodes (secondLoop p ends s).machine ∧
      (p.nodes ≤ p.nodesCount → (secondLoop p ends s).machine.mishaps = s.machine.mishaps) ∧
      Distinct (secondLoop p ends s) := by
  have hloop : BeforeNode p s.machine.world.acc s.machine.world.nodes s.machine.mishaps p.nodes
      (loop (secondNode p ends) p.nodes (secondStart p ends s)) :=
    loop_inv (BeforeNode p _ _ _) (.begun rfl rfl (secondStart_begun hs hquiet)) fun i s _ hs => hs.node hcount
  unfold secondLoop
  generalize loop (secondNode p ends) p.nodes (secondStart p ends s) = s' at hloop
  cases hloop with
  | begun hi _ _ => omega
  | during k hpos hle hi hduring =>
    have hend : Updated p _ _ (secondEnd p ends s').machine ∧ _ := hduring.end hle rfl hi
    refine ⟨hend.1, fun hsmall => hend.2 ?_, ?_⟩
    · by_contra hk
      have : p.nodesCount ≤ k * p.nodesCount := Nat.le_mul_of_pos_left _ (Nat.pos_of_ne_zero hk)
      omega
    · obtain ⟨hrp, hrw, hpw⟩ := hduring.distinct
      exact ⟨hrw.symm, hpw.symm, hrp⟩

/-- Every node of the array is updated exactly once, in index order, and nothing else of it changes. -/
structure UpdatesOnce (p : Params ν) (x y : (ℤ → ν) × List ν) : Prop where
  applied : y.2 = x.2 ++ (List.range p.nodes).map fun i : ℕ => x.1 i
  nodes : ∀ i, y.1 i = if 0 ≤ i ∧ i < p.nodes then p.update (x.1 i) else x.1 i

lemma UpdatesOnce.unique {x y z : (ℤ → ν) × List ν} (hy : UpdatesOnce p x y)
    (hz : UpdatesOnce p x z) : y = z := by
  refine Prod.ext (funext fun i => ?_) ?_
  · rw [hy.nodes, hz.nodes]
  · rw [hy.applied, hz.applied]

lemma defaultLoop_updatesOnce (p : Params ν) (x : (ℤ → ν) × List ν) : UpdatesOnce p x
    (defaultLoop p x) := by
  have hloop : ∀ n, (loop (updateNode p) n x).2 = firsts x.2 x.1 n ∧
      ∀ i, (loop (updateNode p) n x).1 i = if 0 ≤ i ∧ i < n then p.update (x.1 i) else x.1 i := by
    intro n
    induction n with
    | zero => exact ⟨by simp [firsts], fun i => (if_neg (by omega)).symm⟩
    | succ n ih =>
      obtain ⟨happlied, hnodes⟩ := ih
      have hn : (loop (updateNode p) n x).1 n = x.1 n := (hnodes n).trans (if_neg (by omega))
      rw [loop_succ, updateNode, hn, happlied, firsts_succ]
      refine ⟨rfl, fun i => ?_⟩
      dsimp only
      rw [Function.update_apply, hnodes]
      by_cases hi : i = n
      · rw [if_pos hi, if_pos (by omega), hi]
      · rw [if_neg hi]
        exact if_congr (by omega) rfl rfl
  exact ⟨(hloop p.nodes).1, (hloop p.nodes).2⟩

lemma Updated.once {m m' : Machine (World ν (List ν)) DmaRes Transfer}
    (h : Updated p m.world.acc m.world.nodes m') : UpdatesOnce p m.world.data m'.world.data :=
  ⟨h.applied, h.nodes⟩

/-- The second loops update every node exactly once and in order, as `kernel_default` does. -/
theorem secondLoops_eq_defaultLoop (p : Params ν) (hnodes : 1 ≤ p.nodes) (hcount : 1 ≤ p.nodesCount)
    (ends : ℕ → List ℕ) (m : Machine (World ν (List ν)) DmaRes Transfer) (hquiet : Quiet m) :
    UpdatesOnce p m.world.data (defaultLoop p m.world.data) ∧
      (secondLoop p ends (dma2Buffers m)).machine.world.data = defaultLoop p m.world.data ∧
      (secondLoop p ends (bestBuffers m)).machine.world.data = defaultLoop p m.world.data := by
  have hdefault := defaultLoop_updatesOnce p m.world.data
  have hdma2 := (secondLoop_spec (s := dma2Buffers m) ⟨by simp [dma2Buffers], by simp [dma2Buffers], by simp [dma2Buffers]⟩
    hquiet hnodes hcount ends).1.once
  have hbest := (secondLoop_spec (s := bestBuffers m) ⟨by simp [bestBuffers], by simp [bestBuffers], by simp [bestBuffers]⟩
    hquiet hnodes hcount ends).1.once
  exact ⟨hdefault, hdma2.unique hdefault, hbest.unique hdefault⟩

theorem secondLoops_eq_defaultLoop_five :
    (secondLoop ⟨5, 2, (· + 1)⟩ (fun _ => [1]) (dma2Buffers (Machine.boot ⟨fun i => i, [], fun _ _ => 0, fun _ _ => 0⟩))).machine.world.data =
      defaultLoop ⟨5, 2, (· + 1)⟩ (fun i : ℤ => i, []) :=
  (secondLoops_eq_defaultLoop ⟨5, 2, (· + 1)⟩ (by decide) (by decide) (fun _ => [1])
    (Machine.boot ⟨fun i => i, [], fun _ _ => 0, fun _ _ => 0⟩) (by simp [Quiet, Machine.boot])).2.1

/-! ## `kernel_coprocessor` -/

inductive BeforeRound (p : Params ν) (acc₀ : List ν) (nodes₀ : ℤ → ν) (ms : List Mishap) : ℕ → State ν → Prop
  | begun (s : State ν) : s.rr = p.nodesCount → Begun p acc₀ nodes₀ ms s → BeforeRound p acc₀ nodes₀ ms 0 s
  | during (k : ℕ) (s : State ν) : s.rr = p.nodesCount → During p acc₀ nodes₀ ms k p.nodesCount s →
    BeforeRound p acc₀ nodes₀ ms (k + 1) s

lemma coprocessorChunk_rr (k : ℕ) (s : State ν) : (coprocessorChunk p ends k s).rr = s.rr := by
  unfold coprocessorChunk
  refine (loop_keeps State.rr (fun j s => (rfl : (process p ends j s).rr = s.rr)) _ _).trans ?_
  unfold turn
  dsimp only
  split <;> rfl

lemma BeforeRound.chunk (h : BeforeRound p acc₀ nodes₀ ms k s) :
    BeforeRound p acc₀ nodes₀ ms (k + 1) (coprocessorChunk p ends k s) := by
  have hrr : (coprocessorChunk p ends k s).rr = s.rr := coprocessorChunk_rr k s
  have hnext : During p acc₀ nodes₀ ms k 0 (turn p ends (k * p.nodesCount) s) →
      During p acc₀ nodes₀ ms k p.nodesCount (coprocessorChunk p ends k s) := fun hturn =>
    loop_inv (During p acc₀ nodes₀ ms k) hturn fun j s hj hs => hs.process hj
  cases h with
  | begun _ hs hbegun => exact .during 0 _ (hrr.trans hs) (hnext hbegun.wait.turn)
  | during k _ hs hduring => exact .during (k + 1) _ (hrr.trans hs) (hnext hduring.wait.turn)

section
variable (ends) (m : Machine (World ν (List ν)) DmaRes Transfer)

lemma effect_acc (w : World ν (List ν)) (d : Transfer) {acc : List ν} (h : w.acc = acc) :
    ((engine ends).effect d w).acc = acc := by
  rw [← h]
  cases d <;> rfl

lemma tick_acc : ((engine ends).tick m).world.acc = m.world.acc :=
  (tick_inv (fun w _ => w.acc = m.world.acc) (fun w _ x _ _ => effect_acc ends w x.2) rfl).1

lemma wait_acc (rs : List DmaRes) : ((engine ends).wait rs m).world.acc = m.world.acc :=
  wait_inv rs (fun w _ => w.acc = m.world.acc) (fun w _ x _ _ => effect_acc ends w x.2) rfl

lemma request_acc (r : DmaRes) (d : Transfer) :
    ((engine ends).request r d m).world.acc = m.world.acc := by
  rw [request_world]
  exact tick_acc ends m

end

lemma process_acc (j : ℕ) (s : State ν) :
    (process p ends j s).machine.world.acc.length = s.machine.world.acc.length + 1 := by
  have hacc : (process p ends j s).machine.world.acc = ((engine ends).tick s.machine).world.acc ++ _ :=
    congrArg World.acc (act_world ..)
  rw [hacc, length_append, tick_acc, length_singleton]

lemma turn_acc (i : ℕ) (s : State ν) : (turn p ends i s).machine.world.acc = s.machine.world.acc := by
  unfold turn State.rotate
  dsimp only
  split <;> simp only [request_acc, wait_acc]

lemma coprocessorChunk_acc (k : ℕ) (s : State ν) :
    (coprocessorChunk p ends k s).machine.world.acc.length = s.machine.world.acc.length + p.nodesCount := by
  refine loop_inv (fun j (s' : State ν) => s'.machine.world.acc.length = s.machine.world.acc.length + j) ?_
    fun j s' _ hs' => ?_
  · rw [turn_acc]
    rfl
  · rw [process_acc, hs', add_assoc]

lemma coprocessorLoop_acc (p : Params ν) (ends : ℕ → List ℕ) (s : State ν) :
    (coprocessorLoop p ends s).machine.world.acc.length = s.machine.world.acc.length + p.rounds * p.nodesCount := by
  have hloop : (loop (coprocessorChunk p ends) p.rounds (secondStart p ends s)).machine.world.acc.length =
      s.machine.world.acc.length + p.rounds * p.nodesCount := by
    refine loop_inv (fun k (s' : State ν) =>
      s'.machine.world.acc.length = s.machine.world.acc.length + k * p.nodesCount) ?_ fun k s' _ hs' => ?_
    · unfold secondStart
      simp only [request_acc, wait_acc, zero_mul, add_zero]
    · rw [coprocessorChunk_acc, hs', succ_mul, add_assoc]
  unfold coprocessorLoop secondEnd State.rotate
  simp only [request_acc, wait_acc, hloop]

lemma coprocessorLoop_once (hs : Distinct s) (hquiet : Quiet s.machine) (hnodes : 0 < p.nodes)
    (hcount : 0 < p.nodesCount) (hdvd : p.nodesCount ∣ p.nodes) (ends : ℕ → List ℕ) :
    UpdatesOnce p s.machine.world.data (coprocessorLoop p ends s).machine.world.data := by
  obtain ⟨k, hk⟩ := hdvd
  have hkpos : 0 < k := Nat.pos_of_mul_pos_left (hk ▸ hnodes)
  have hrounds : p.rounds = k := by
    unfold Params.rounds
    rw [hk, Nat.add_sub_assoc hcount, Nat.mul_add_div hcount, Nat.div_eq_of_lt (by omega), add_zero]
  have hloop : BeforeRound p s.machine.world.acc s.machine.world.nodes s.machine.mishaps p.rounds
      (loop (coprocessorChunk p ends) p.rounds (secondStart p ends s)) :=
    loop_inv (BeforeRound p _ _ _) (.begun _ rfl (secondStart_begun hs hquiet)) fun _ _ _ hs => hs.chunk
  unfold coprocessorLoop
  generalize loop (coprocessorChunk p ends) p.rounds (secondStart p ends s) = s' at hloop
  rw [hrounds] at hloop
  cases hloop with
  | begun _ _ _ => omega
  | during k _ hrr hduring =>
    have hwait : During p s.machine.world.acc s.machine.world.nodes s.machine.mishaps k p.nodesCount
        { s' with machine := (engine ends).wait [.res1] s'.machine } :=
      ⟨⟨hduring.distinct.rp, hduring.distinct.rw, hduring.distinct.pw⟩, hduring.first,
        hduring.awaits.wait_keeps (hduring.stable ends) [.res1], (wait_mishaps _ _).trans hduring.calm⟩
    exact (hwait.end le_rfl hrr (by rw [hk]; ring)).1.once

/-- `kernel_coprocessor` updates every node once and in place just when the nodes are whole chunks.
-/
theorem coprocessorLoop_updatesOnce_iff (p : Params ν) (hnodes : 1 ≤ p.nodes)
    (hcount : 1 ≤ p.nodesCount)
    (ends : ℕ → List ℕ) (m : Machine (World ν (List ν)) DmaRes Transfer) (hquiet : Quiet m) :
    UpdatesOnce p m.world.data (coprocessorLoop p ends (dma2Buffers m)).machine.world.data ↔
      p.nodesCount ∣ p.nodes := by
  constructor
  · intro h
    have hlength := congrArg List.length h.applied
    change (coprocessorLoop p ends (dma2Buffers m)).machine.world.acc.length = _ at hlength
    rw [coprocessorLoop_acc, List.length_append, List.length_map, List.length_range] at hlength
    exact ⟨p.rounds, by rw [mul_comm]; exact (Nat.add_left_cancel hlength).symm⟩
  · intro hdvd
    exact coprocessorLoop_once (s := dma2Buffers m) ⟨by simp [dma2Buffers], by simp [dma2Buffers], by simp [dma2Buffers]⟩
      hquiet hnodes hcount hdvd ends

theorem coprocessorLoop_updatesOnce_iff_four :
    UpdatesOnce ⟨4, 2, (· + 1)⟩ (fun i : ℤ => i, [])
        (coprocessorLoop ⟨4, 2, (· + 1)⟩ (fun _ => [])
          (dma2Buffers (Machine.boot ⟨fun i => i, [], fun _ _ => 0, fun _ _ => 0⟩))).machine.world.data ↔ 2 ∣ 4 :=
  coprocessorLoop_updatesOnce_iff ⟨4, 2, (· + 1)⟩ (by decide) (by decide) (fun _ => [])
    (Machine.boot ⟨fun i => i, [], fun _ _ => 0, fun _ _ => 0⟩) (by simp [Quiet, Machine.boot])

/-- Three nodes in chunks of two: node 2 is written in the place of node 1. -/
theorem coprocessorLoop_threeNodes :
    (coprocessorLoop ⟨3, 2, (· + 100)⟩ (fun _ => [])
        (dma2Buffers (Machine.boot ⟨fun i => i, [], fun _ _ => 0, fun _ _ => 0⟩))).machine.world.acc = [0, 1, 2, 3] ∧
      (coprocessorLoop ⟨3, 2, (· + 100)⟩ (fun _ => [])
        (dma2Buffers (Machine.boot ⟨fun i => i, [], fun _ _ => 0, fun _ _ => 0⟩))).machine.world.nodes 1 = (102 : ℤ) := by
  decide +kernel

end SmcPim.Graphs.PageRank
