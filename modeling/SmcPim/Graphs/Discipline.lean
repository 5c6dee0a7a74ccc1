import SmcPim.Graphs.Ranks
import SmcPim.Graphs.Relaxations
import SmcPim.Lib.Lasting

/-! # When the kernels request a busy resource -/

namespace SmcPim.Graphs

open Engine List Function Machine Mishap Scheme DmaRes

variable {ν τ α : Type} {K : Scheme ν τ α} {ends : ℕ → List ℕ} {n r : ℕ}
  {P : Machine (World ν α) DmaRes Transfer → Prop} {m : Machine (World ν α) DmaRes Transfer}

/-! ## What lasts in a walk -/

namespace Scheme

variable (h : Lasting (engine ends) DmaRes.res0 P)
include h

lemma refill_lasting (K : Scheme ν τ α) (r : ℕ) (c : Cursor) (hm : P m) : P
    (K.nodes.refill (engine ends) r c m).2 :=
  Lasting.refill (S := K.nodes) h (fun _ => rfl) r c hm

lemma useBufs_lasting (ks : List ℕ) (f : World ν α → (ℤ → ν) × α) (hm : P m) : P
    (useBufs ends ks f m) :=
  h.act _ _ m hm

lemma steps_lasting (ks : ℕ → List ℕ) (f : ℕ → World ν α → (ℤ → ν) × α) (n : ℕ) (hm : P m) :
    P (loop (fun j => useBufs ends (ks j) (f j)) n m) :=
  loop_inv (fun _ => P) hm fun j _ _ hm => useBufs_lasting h (ks j) (f j) hm

lemma direct_lasting {s : Walk ν α} (hs : P (K.start ends s).machine) : P
    (K.direct ends n s).machine := by
  refine loop_inv (fun _ (s : Walk ν α) => P s.machine) hs fun r s _ hs => ?_
  have hrefill := refill_lasting h K r s.node hs
  unfold directNode
  generalize K.nodes.refill (engine ends) r s.node s.machine = q at hrefill ⊢
  obtain ⟨c, m⟩ := q
  have hpeek : P (peek ends c.ping m) := useBufs_lasting h _ _ hrefill
  dsimp only
  split
  · exact steps_lasting h _ _ _ hpeek
  · exact hpeek

lemma drain_lasting {s : Ahead ν α} (hs : P s.machine) : P (K.drain ends s).machine := by
  unfold drain
  split
  · exact steps_lasting h _ _ _ hs
  · exact hs

lemma fetchAhead_lasting {s : Ahead ν α} (hs : P s.machine) : P (K.fetchAhead ends r s).machine := by
  have hrefill := refill_lasting h K r s.node hs
  unfold fetchAhead
  generalize K.nodes.refill (engine ends) r s.node s.machine = q at hrefill ⊢
  obtain ⟨c, m⟩ := q
  have hpeek : P (peek ends c.ping m) := useBufs_lasting h _ _ hrefill
  dsimp only
  split
  · exact h.requests _ hpeek
  · exact hpeek

lemma takeOver_lasting (hres : res0 ∉ K.resources) {s : Ahead ν α} (hs : P s.machine) :
    P (K.takeOver ends s).machine := by
  have hpeek : P (peek ends s.node.ping s.machine) := useBufs_lasting h _ _ hs
  unfold takeOver
  dsimp only
  split
  · exact h.wait _ _ hres hpeek
  · exact hpeek

lemma ahead_lasting (hres : res0 ∉ K.resources) {s : Walk ν α} (hs : P (K.start ends s).machine) :
    P (K.ahead ends n s).machine := by
  refine drain_lasting h (loop_inv (fun _ (s : Ahead ν α) => P s.machine) hs fun r s _ hs => ?_)
  exact takeOver_lasting h hres (drain_lasting h (fetchAhead_lasting h hs))

end Scheme

/-! ## The walks before

The transfers end only when they are waited for. -/

structure Walked (j : ℕ) (m : Machine (World ν α) DmaRes Transfer) : Prop where
  outstanding : 1 ≤ j → DmaRes.res0 ∈ m.pending.map Prod.fst
  busy : 2 ≤ j → Mishap.busy ∈ m.mishaps

def never : ℕ → List ℕ := fun _ => []

lemma engine_lazy : Lazy (engine (ν := ν) (α := α) never) := fun _ => rfl

lemma walked_boot (w : World ν α) : Walked 0
    (boot w) := ⟨fun h => absurd h (by decide), fun h => absurd h (by decide)⟩

lemma walked_lasting (j : ℕ) : Lasting (engine never) res0 (Walked (ν := ν) (α := α) j) := by
  have hpending := lasting_pending (engine_lazy (ν := ν) (α := α)) res0
  have hbusy := lasting_mishap (engine (ν := ν) (α := α) never) res0 .busy
  refine ⟨fun r d m h => ?_, fun uses f m h => ?_, fun rs m hrs h => ?_, fun d m h => ?_⟩
  · exact ⟨fun hj => hpending.request r d m (h.outstanding hj), fun hj => hbusy.request r d m (h.busy hj)⟩
  · exact ⟨fun hj => hpending.act uses f m (h.outstanding hj), fun hj => hbusy.act uses f m (h.busy hj)⟩
  · exact ⟨fun hj => hpending.wait rs m hrs (h.outstanding hj), fun hj => hbusy.wait rs m hrs (h.busy hj)⟩
  · exact ⟨fun hj => hpending.renew d m (h.outstanding hj), fun hj => hbusy.renew d m (h.busy hj)⟩

lemma Walked.start {j : ℕ} {s : Scheme.Walk ν α} (h : Walked j s.machine) (K : Scheme ν τ α) :
    Walked (j + 1) (K.start never s).machine := by
  refine ⟨fun _ => (engine_lazy.mem_request _ _).mpr (.inr rfl), fun hj => ?_⟩
  exact engine_lazy.busy (h.outstanding (Nat.le_of_succ_le_succ hj)) _

lemma Walked.iterate {run : Machine (World ν α) DmaRes Transfer → Machine (World ν α) DmaRes Transfer}
    (hrun : ∀ j m, Walked j m → Walked (j + 1) (run m)) (w : World ν α) (n : ℕ) :
    Walked n (run^[n] (boot w)) := by
  induction n with
  | zero => exact walked_boot w
  | succ n ih =>
    rw [iterate_succ_apply']
    exact hrun n _ ih

lemma once_iff
    {run : (ℕ → List ℕ) → Machine (World ν α) DmaRes Transfer → Machine (World ν α) DmaRes Transfer}
    {w : World ν α} (hcalm : ∀ ends, (run ends (boot w)).mishaps = [])
    (hrun : ∀ j m, Walked j m → Walked (j + 1) (run never m)) (n : ℕ) :
    (∀ ends, busy ∉ ((run ends)^[n] (boot w)).mishaps) ↔ n ≤ 1 := by
  constructor
  · intro h
    by_contra hn
    exact h never ((Walked.iterate hrun w n).busy (by omega))
  · intro hn ends
    interval_cases n
    · exact not_mem_nil
    · rw [iterate_one, hcalm]
      exact not_mem_nil

/-! ## Teenage followers -/

namespace Teenage

variable (p : Params) (ends : ℕ → List ℕ)

def runDma1 (m : Machine (World Node Unit) DmaRes Transfer) : Machine (World Node Unit) DmaRes Transfer :=
  ((dma1 p).direct ends p.nodes (.boot m)).machine

def runBest (m : Machine (World Node Unit) DmaRes Transfer) : Machine (World Node Unit) DmaRes Transfer :=
  ((best p).ahead ends p.nodes (.boot m)).machine

variable {p}

lemma runDma1_iff (hcount : 0 < p.nodesCount) (w : World Node Unit) (n : ℕ) :
    (∀ ends, busy ∉ ((runDma1 p ends)^[n] (boot w)).mishaps) ↔ n ≤ 1 := by
  refine once_iff (fun ends => ?_) (fun j m hm => ?_) n
  · exact (direct_ends (dma1_keeps p w.nodes) hcount (.boot rfl)).calm
  · exact direct_lasting (walked_lasting (j + 1)) (Walked.start (s := .boot m) hm (dma1 p))

lemma runBest_iff (hcount : 0 < p.nodesCount) {w : World Node Unit} (hfits : Fits p w.nodes) (n : ℕ) :
    (∀ ends, busy ∉ ((runBest p ends)^[n] (boot w)).mishaps) ↔ n ≤ 1 := by
  refine once_iff (fun ends => ?_) (fun j m hm => ?_) n
  · exact (ahead_ends (best_keeps p w.nodes) (best_sound hcount) hfits.counts (.boot rfl)).calm
  · exact ahead_lasting (walked_lasting (j + 1)) (best_sound hcount).res0 (Walked.start (s := .boot m) hm (best p))

end Teenage

/-! ## Bellman-Ford -/

namespace BellmanFord

/-- A run of `kernel_best`, unless a run before it has ended in a panic. -/
def rerunBest (p : Params) (atomics : Bool) (ends : ℕ → List ℕ) (m : Machine (World Node Acc) DmaRes Transfer) :
    Machine (World Node Acc) DmaRes Transfer :=
  match m.world.acc.fault with
  | some _ => m
  | none => ((best p atomics).ahead ends p.nodes (.boot { m with world := { m.world with acc := ⟨0, none, []⟩ } })).machine

variable {p : Params} {atomics : Bool} {w : World Node Acc} {m : Machine (World Node Acc) DmaRes Transfer}

lemma rerunBest_some {e : Fault} (h : m.world.acc.fault = some e) :
    rerunBest p atomics ends m = m := by
  unfold rerunBest
  rw [h]

lemma rerunBest_none (h : m.world.acc.fault = none) :
    rerunBest p atomics ends m =
      ((best p atomics).ahead ends p.nodes (.boot { m with world := { m.world with acc := ⟨0, none, []⟩ } })).machine := by
  unfold rerunBest
  rw [h]

lemma best_res0 : res0 ∉ (best p atomics).resources := by simp [best, simpledma, atomicmin]

lemma rerunBest_walked {j : ℕ} (hfault : m.world.acc.fault = none) (h : Walked j m) :
    Walked (j + 1) (rerunBest p atomics never m) := by
  rw [rerunBest_none hfault]
  have hboot : Walked j { m with world := { m.world with acc := (⟨0, none, []⟩ : Acc) } } := ⟨h.outstanding, h.busy⟩
  exact ahead_lasting (walked_lasting (j + 1)) best_res0 (Walked.start (s := .boot _) hboot (best p atomics))

lemma rerunBest_busy (h : busy ∈ m.mishaps) : busy ∈ (rerunBest p atomics ends m).mishaps := by
  have hlasting := lasting_mishap (engine (ν := Node) (α := Acc) ends) res0 .busy
  cases hfault : m.world.acc.fault with
  | some e =>
    rw [rerunBest_some hfault]
    exact h
  | none =>
    rw [rerunBest_none hfault]
    exact ahead_lasting hlasting best_res0 (hlasting.request _ _ _ h)

lemma runBest_fault_iff (hcount : 0 < p.nodesCount) (hfits : Fits p w.nodes) (ends : ℕ → List ℕ) :
    (runBest p ends w atomics).machine.world.acc.fault = none ↔
      ¬(atomics = true ∧ p.arch ≠ .arm ∧ ∃ r < p.nodes, (w.nodes r).outDegree ≠ 0) := by
  by_cases hmin : atomics = true ∧ p.arch ≠ .arm
  · obtain ⟨rfl, harm⟩ := hmin
    have herror (o m : ℕ) : ∃ e, imin p o m = .error e := ⟨_, imin_arm64 harm o m⟩
    have hstops : Scheme.Ends (Stops w.nodes p.nodes 0) (runBest p ends w true) :=
      best_ends (stops_keep herror p.nodes) hcount hfits (stops_start w.nodes)
    rw [show (runBest p ends w true).machine.world.acc.fault = none ↔ _ from hstops.data.none_iff]
    simp [harm]
  · have hok (o m : ℕ) : ∃ d, (if atomics then imin p else plainMin) o m = .ok d := by
      cases atomics with
      | false => exact plainMin_ok o m
      | true =>
        have harm : p.arch = .arm := by_contra fun harm => hmin ⟨rfl, harm⟩
        exact ⟨_, imin_arm harm o m⟩
    have hsums : Scheme.Ends (Sums p w.nodes p.nodes 0) (runBest p ends w atomics) :=
      best_ends (sums_keep hok) hcount hfits (sums_start p w.nodes)
    exact iff_of_true hsums.data.fault fun h => hmin ⟨h.1, h.2.1⟩

lemma kept_keep {curr : ℕ → ℕ} {store : ℕ → ℕ → Except Fault ℕ} (nodes0 : ℤ → Node) (n : ℕ) :
    EdgesKeep (relaxCopy p curr store) nodes0 n fun _ _ x => Kept Node.toEdges nodes0 x.1 where
  kept _ _ _ hx := hx
  edge _ _ _ _ _ _ hx _ _ _ := relaxCopy_kept hx
  next _ _ hx := hx

lemma rerunBest_iff (hcount : 0 < p.nodesCount) (hfits : Fits p w.nodes) (n : ℕ) :
    (∀ ends, busy ∉ ((rerunBest p atomics ends)^[n] (Machine.boot { w with acc := ⟨0, none, []⟩ })).mishaps) ↔
      n ≤ 1 ∨ (atomics = true ∧ p.arch ≠ .arm ∧ ∃ r < p.nodes, (w.nodes r).outDegree ≠ 0) := by
  have hfirst (ends : ℕ → List ℕ) : rerunBest p atomics ends (Machine.boot { w with acc := ⟨0, none, []⟩ }) =
      (runBest p ends w atomics).machine := rfl
  have hcalm (ends : ℕ → List ℕ) : (runBest p ends w atomics).machine.mishaps = [] :=
    (best_ends (kept_keep w.nodes p.nodes) hcount hfits fun _ => rfl).calm
  constructor
  · intro h
    by_contra hn
    rw [not_or, not_le] at hn
    have hbusy (k : ℕ) : busy ∈
        ((rerunBest p atomics never)^[k + 2] (Machine.boot { w with acc := ⟨0, none, []⟩ })).mishaps := by
      induction k with
      | zero =>
        have hwalked : Walked 1 (rerunBest p atomics never (Machine.boot { w with acc := ⟨0, none, []⟩ })) :=
          rerunBest_walked rfl (walked_boot _)
        exact (rerunBest_walked ((runBest_fault_iff hcount hfits never).mpr hn.2) hwalked).busy le_rfl
      | succ k ih =>
        rw [iterate_succ_apply']
        exact rerunBest_busy ih
    obtain ⟨k, rfl⟩ : ∃ k, n = k + 2 := ⟨n - 2, by omega⟩
    exact h never (hbusy k)
  · rintro (hn | hpanic) ends
    · interval_cases n
      · exact not_mem_nil
      · rw [iterate_one, hfirst, hcalm]
        exact not_mem_nil
    · cases n with
      | zero => exact not_mem_nil
      | succ n =>
        obtain ⟨e, he⟩ : ∃ e, (runBest p ends w atomics).machine.world.acc.fault = some e :=
          Option.ne_none_iff_exists'.mp fun hnone => (runBest_fault_iff hcount hfits ends).mp hnone hpanic
        rw [iterate_succ_apply, hfirst, iterate_fixed (rerunBest_some he), hcalm]
        exact not_mem_nil

end BellmanFord

/-! ## PageRank -/

namespace PageRank

def runs {S : Type} (kernel : ℕ → S → S) (ks : List ℕ) (s : S) : S := ks.foldl (fun s k => kernel k s) s

section
variable {φ : Type} {g : Ranks φ} {m : Machine (World (Node φ) (List (Node φ))) DmaRes Transfer}

lemma kernelDma1_walked {j : ℕ} (h : Walked j m) (k : ℕ) : Walked (j + (k + 1))
    (kernelDma1 g never k m) := by
  have hinit : Walked j (initNodes g never m) := steps_lasting (walked_lasting j) _ _ _ h
  refine loop_inv (fun i (s : Scheme.Walk (Node φ) (List (Node φ))) => Walked (j + i) s.machine) hinit fun i s _ hs => ?_
  have hfirst : Walked (j + i + 1) ((firstLoop g).direct never g.nodes s).machine :=
    direct_lasting (walked_lasting (j + i + 1)) (hs.start (firstLoop g))
  exact steps_lasting (walked_lasting (j + i + 1)) _ _ _ hfirst

lemma runs_dma1_walked {j : ℕ} (h : Walked j m) (ks : List ℕ) :
    Walked (j + (ks.map (· + 1)).sum) (runs (kernelDma1 g never) ks m) := by
  induction ks generalizing j m with
  | nil => exact h
  | cons k ks ih =>
    have hnext := ih (kernelDma1_walked (g := g) h k)
    rw [map_cons, sum_cons, ← Nat.add_assoc]
    exact hnext

lemma runs_dma1_iff (hcount : 0 < g.nodesCount) (w : World (Node φ) (List (Node φ))) (ks : List ℕ) :
    (∀ ends, busy ∉ (runs (kernelDma1 g ends) ks (boot w)).mishaps) ↔ (ks.map (· + 1)).sum ≤ 1 := by
  constructor
  · intro h
    by_contra hsum
    exact h never ((runs_dma1_walked (walked_boot w) ks).busy (by omega))
  · intro hsum ends
    match ks with
    | [] => exact not_mem_nil
    | [0] =>
      have hcalm : (kernelDma1 g ends 0 (boot w)).mishaps = [] :=
        kernelDma1_calm hcount ⟨fun _ => rfl, rfl, rfl⟩
      rw [runs, foldl_cons, foldl_nil, hcalm]
      exact not_mem_nil
    | [_ + 1] => simp at hsum
    | _ :: _ :: _ =>
      simp only [map_cons, sum_cons] at hsum
      omega

end

/-! ### The last write of the second loop -/

section
variable {ν : Type} {p : Params ν} {s : State ν} {k : ℕ}

lemma turn_first (i : ℕ) : (turn p never i s).first = false := by
  unfold turn State.rotate
  dsimp only
  split
  · simp_all
  · rfl

lemma turn_outstanding (i : ℕ) (hs : s.first = false) :
    res1 ∈ (turn p never i s).machine.pending.map Prod.fst := by
  unfold turn State.rotate
  dsimp only
  rw [hs]
  exact (engine_lazy.mem_request _ _).mpr (.inr rfl)

inductive Written (p : Params ν) (k : ℕ) (s : State ν) : Prop
  | start : k = 0 → s.rr = p.nodesCount → Written p k s
  | chunk : 0 < k → k ≤ p.nodesCount → s.rr = k → s.first = false → Written p k s
  | later : p.nodesCount < k → s.first = false → DmaRes.res1 ∈ s.machine.pending.map Prod.fst → Written p k s

lemma secondNode_of_turn (hs : s.rr = p.nodesCount) :
    secondNode p never k s = { process p never 0 { turn p never k s with rr := 0 } with rr := 1 } := by
  unfold secondNode
  rw [if_pos hs]

lemma secondNode_of_ne (hs : s.rr ≠ p.nodesCount) :
    secondNode p never k s = { process p never s.rr s with rr := s.rr + 1 } := by
  unfold secondNode
  rw [if_neg hs]

lemma Written.node (hcount : 0 < p.nodesCount) (h : Written p k s) : Written p (k + 1)
    (secondNode p never k s) := by
  cases h with
  | start hk hrr =>
    rw [hk, secondNode_of_turn hrr]
    exact .chunk Nat.one_pos hcount rfl (turn_first 0)
  | chunk hpos hle hrr hfirst =>
    rcases hle.lt_or_eq with hlt | heq
    · rw [secondNode_of_ne (by omega)]
      exact .chunk (by omega) hlt (by simp [hrr]) hfirst
    · rw [secondNode_of_turn (hrr.trans heq)]
      refine .later (by omega) (turn_first k) ?_
      exact (engine_lazy.mem_act _ _).mpr (turn_outstanding k hfirst)
  | later hlt hfirst hpending =>
    by_cases hrr : s.rr = p.nodesCount
    · rw [secondNode_of_turn hrr]
      refine .later (by omega) (turn_first k) ?_
      exact (engine_lazy.mem_act _ _).mpr (turn_outstanding k hfirst)
    · rw [secondNode_of_ne hrr]
      exact .later (by omega) hfirst ((engine_lazy.mem_act _ _).mpr hpending)

lemma secondLoop_busy (hcount : 0 < p.nodesCount) (hlt : p.nodesCount < p.nodes) (s : State ν) :
    busy ∈ (secondLoop p never s).machine.mishaps := by
  have hloop : Written p p.nodes (loop (secondNode p never) p.nodes (secondStart p never s)) :=
    loop_inv (Written p) (.start rfl rfl) fun k s _ hs => hs.node hcount
  unfold secondLoop
  generalize loop (secondNode p never) p.nodes (secondStart p never s) = s' at hloop
  cases hloop with
  | start hzero _ | chunk _ hle _ _ => omega
  | later _ _ hpending => exact mem_wait _ (engine_lazy.busy hpending _)

end

section
variable {φ : Type} {g : Ranks φ} {nodes0 : ℤ → Node φ}

lemma runs_iff
    (kernel : (ℕ → List ℕ) → ℕ → Machine (World (Node φ) (List (Node φ))) DmaRes Transfer →
      Machine (World (Node φ) (List (Node φ))) DmaRes Transfer)
    (hidle : g.nodes ≤ g.nodesCount → ∀ ends nodes0 k m, Idle nodes0 m → Idle nodes0 (kernel ends k m))
    (hbusy : g.nodesCount < g.nodes → ∀ k m, busy ∈ (kernel never k m).mishaps)
    (w : World (Node φ) (List (Node φ))) (ks : List ℕ) :
    (∀ ends, busy ∉ (runs (kernel ends) ks (boot w)).mishaps) ↔ ks = [] ∨ g.nodes ≤ g.nodesCount := by
  constructor
  · intro h
    rcases eq_nil_or_concat ks with rfl | ⟨ks, k, rfl⟩
    · exact .inl rfl
    · refine .inr (not_lt.mp fun hlt => h never ?_)
      rw [concat_eq_append, runs, foldl_append]
      exact hbusy hlt k _
  · rintro (rfl | hle) ends
    · exact not_mem_nil
    · have hruns : ∀ m, Idle w.nodes m → Idle w.nodes (runs (kernel ends) ks m) := by
        induction ks with
        | nil => exact fun m hm => hm
        | cons k ks ih => exact fun m hm => ih (kernel ends k m) (hidle hle ends w.nodes k m hm)
      rw [(hruns (boot w) ⟨fun _ => rfl, rfl, rfl⟩).calm]
      exact not_mem_nil

section
variable (hnodes : 0 < g.nodes) (hcount : 0 < g.nodesCount) (w : World (Node φ) (List (Node φ)))
include hnodes hcount w

lemma runs_dma2_iff (ks : List ℕ) :
    (∀ ends, busy ∉ (runs (kernelDma2 g ends) ks (boot w)).mishaps) ↔
      ks = [] ∨ g.nodes ≤ g.nodesCount :=
  runs_iff (kernelDma2 g) (fun hle _ _ k _ hm => kernelDma2_idle hnodes hle k hm)
    (fun hlt _ _ => secondLoop_busy (p := g.params) hcount hlt _) w ks

lemma runs_best_iff (ks : List ℕ) :
    (∀ ends, busy ∉ (runs (kernelBest g ends) ks (boot w)).mishaps) ↔
      ks = [] ∨ g.nodes ≤ g.nodesCount :=
  runs_iff (kernelBest g) (fun hle _ _ k _ hm => kernelBest_idle hnodes hle k hm)
    (fun hlt _ _ => secondLoop_busy (p := g.params) hcount hlt _) w ks

end

end

end PageRank

/-- When no kernel ever requests a busy resource, whenever the transfers end. -/
theorem never_busy_iff {φ : Type} (g : PageRank.Ranks φ) (hnodes : 1 ≤ g.nodes)
    (hcount : 1 ≤ g.nodesCount)
    (wg : World (PageRank.Node φ) (List (PageRank.Node φ))) (ks : List ℕ)
    (t : Teenage.Params) (htcount : 1 ≤ t.nodesCount) (wt : World Teenage.Node Unit) (htfits : Teenage.Fits t wt.nodes)
    (b : BellmanFord.Params) (hbcount : 1 ≤ b.nodesCount) (wb : World BellmanFord.Node BellmanFord.Acc)
    (hbfits : BellmanFord.Fits b wb.nodes) (atomics : Bool) (n : ℕ) :
    ((∀ ends, Mishap.busy ∉ (PageRank.runs (PageRank.kernelDma1 g ends) ks (Machine.boot wg)).mishaps) ↔
      (ks.map (· + 1)).sum ≤ 1) ∧
    ((∀ ends, Mishap.busy ∉ (PageRank.runs (PageRank.kernelDma2 g ends) ks (Machine.boot wg)).mishaps) ↔
      ks = [] ∨ g.nodes ≤ g.nodesCount) ∧
    ((∀ ends, Mishap.busy ∉ (PageRank.runs (PageRank.kernelBest g ends) ks (Machine.boot wg)).mishaps) ↔
      ks = [] ∨ g.nodes ≤ g.nodesCount) ∧
    ((∀ ends, Mishap.busy ∉ ((Teenage.runDma1 t ends)^[n] (Machine.boot wt)).mishaps) ↔ n ≤ 1) ∧
    ((∀ ends, Mishap.busy ∉ ((Teenage.runBest t ends)^[n] (Machine.boot wt)).mishaps) ↔ n ≤ 1) ∧
    ((∀ ends, Mishap.busy ∉
        ((BellmanFord.rerunBest b atomics ends)^[n] (Machine.boot { wb with acc := ⟨0, none, []⟩ })).mishaps) ↔
      n ≤ 1 ∨ (atomics = true ∧ b.arch ≠ .arm ∧ ∃ r < b.nodes, (wb.nodes r).outDegree ≠ 0)) :=
  ⟨PageRank.runs_dma1_iff hcount wg ks, PageRank.runs_dma2_iff hnodes hcount wg ks, PageRank.runs_best_iff hnodes hcount wg ks,
    Teenage.runDma1_iff htcount wt n, Teenage.runBest_iff htcount htfits n, BellmanFord.rerunBest_iff hbcount hbfits n⟩

theorem never_busy_iff_twoNodes :
    let g : PageRank.Ranks ℕ := ⟨2, 2, 5, 1, fun x _ => x, (· + ·)⟩
    let wg : World (PageRank.Node ℕ) (List (PageRank.Node ℕ)) :=
      ⟨fun _ => ⟨0, 0, 1, fun _ => 1⟩, [], fun _ _ => ⟨0, 0, 0, fun _ => 0⟩, fun _ _ => 0⟩
    let t : Teenage.Params := ⟨.arm, 2, 2⟩
    let wt : World Teenage.Node Unit :=
      ⟨fun _ => ⟨true, 0, 1, fun _ => 1⟩, (), fun _ _ => ⟨false, 0, 0, fun _ => 0⟩, fun _ _ => 0⟩
    let wb : World BellmanFord.Node BellmanFord.Acc :=
      ⟨fun _ => ⟨⟨fun _ => 5, 0, 1, fun _ => 1⟩, 0⟩, ⟨0, none, []⟩, fun _ _ => ⟨⟨fun _ => 0, 0, 0, fun _ => 0⟩, 0⟩, fun _ _ => 0⟩
    ∀ ends, Mishap.busy ∉ (PageRank.kernelDma1 g ends 0 (Machine.boot wg)).mishaps ∧
      Mishap.busy ∉ (PageRank.kernelDma2 g ends 0 (Machine.boot wg)).mishaps ∧
      Mishap.busy ∉ (PageRank.kernelBest g ends 0 (Machine.boot wg)).mishaps ∧
      Mishap.busy ∉ (Teenage.runDma1 t ends (Machine.boot wt)).mishaps ∧
      Mishap.busy ∉ (Teenage.runBest t ends (Machine.boot wt)).mishaps ∧
      Mishap.busy ∉ (BellmanFord.rerunBest t true ends (Machine.boot wb)).mishaps := by
  intro g wg t wt wb ends
  have hfits : 1 * Arch.arm.bytes ≤ maxXferSize := by decide
  obtain ⟨hdma1, hdma2, hbest, hteenage1, hteenage, hbellman⟩ := never_busy_iff g (by decide) (by decide) wg [0]
    t (by decide) wt (fun _ _ => hfits) t (by decide) wb (fun _ _ => hfits) true 1
  exact ⟨hdma1.mpr (by decide) ends, hdma2.mpr (.inr (by decide)) ends, hbest.mpr (.inr (by decide)) ends,
    hteenage1.mpr le_rfl ends, hteenage.mpr le_rfl ends, hbellman.mpr (.inl le_rfl) ends⟩

/-- `kernel_dma2` of PageRank in its only iteration, and `kernel_dma1` of the followers when run
again. -/
theorem busy_requests :
    let g : PageRank.Ranks ℕ := ⟨3, 2, 5, 1, fun x _ => x, (· + ·)⟩
    let wg : World (PageRank.Node ℕ) (List (PageRank.Node ℕ)) :=
      ⟨fun _ => ⟨0, 0, 1, fun _ => 1⟩, [], fun _ _ => ⟨0, 0, 0, fun _ => 0⟩, fun _ _ => 0⟩
    let t : Teenage.Params := ⟨.arm, 2, 2⟩
    let wt : World Teenage.Node Unit :=
      ⟨fun _ => ⟨true, 0, 1, fun _ => 1⟩, (), fun _ _ => ⟨false, 0, 0, fun _ => 0⟩, fun _ _ => 0⟩
    Mishap.busy ∈ (PageRank.kernelDma2 g never 0 (Machine.boot wg)).mishaps ∧
      Mishap.busy ∈ (Teenage.runDma1 t never (Teenage.runDma1 t never (Machine.boot wt))).mishaps := by
  decide +kernel

end SmcPim.Graphs
