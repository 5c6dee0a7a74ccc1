import SmcPim.Graphs.Schemes

/-! # What a walk over a sparse graph keeps -/

namespace SmcPim.Graphs

open Engine List

variable {ν τ α : Type} {K : Scheme ν τ α} {nodes₀ : ℤ → ν} {n r : ℕ} {I : ℕ → ℕ → (ℤ → ν) × α → Prop}
  {ends : ℕ → List ℕ} {known : List Transfer} {l : List (DmaRes × Transfer)}
  {m : Machine (World ν α) DmaRes Transfer} {c : Cursor}

structure Scheme.Keeps (K : Scheme ν τ α) (nodes₀ : ℤ → ν) (n : ℕ) (I : ℕ → ℕ → (ℤ → ν) × α → Prop) : Prop where
  kept : ∀ r j x, I r j x → Kept K.fixed nodes₀ x.1
  edge : ∀ r < n, ∀ j x nd words, I r j x → K.wanted (K.fixed (nodes₀ r)) = true → j < K.degree (K.fixed (nodes₀ r)) →
    K.fixed nd = K.fixed (nodes₀ r) →
    (∀ i < K.resources.length, words i = K.content i (K.fixed (nodes₀ r)) j) → I r (j + 1) (K.edge nd words x)
  next : ∀ r < n, ∀ x, K.wanted (K.fixed (nodes₀ r)) = true → I r (K.degree (K.fixed (nodes₀ r))) x → I (r + 1) 0 x
  skip : ∀ r < n, ∀ x, K.wanted (K.fixed (nodes₀ r)) = false → I r 0 x → I (r + 1) 0 x

namespace Scheme

/-! ## The nodes -/

structure Others (known : List Transfer) (l : List (DmaRes × Transfer)) : Prop where
  resource : DmaRes.res0 ∉ l.map Prod.fst
  bufs : ∀ d ∈ known ++ l.map Prod.snd, 2 ≤ d.buf

lemma Others.nil : Others [] [] := ⟨not_mem_nil, by simp⟩

lemma Others.free (h : Others known l) {buf : ℕ} (hbuf : buf < 2) :
    K.nodes.Free Transfer.buf Transfer.IsRead known l buf := by
  refine ⟨fun _ => trivial, fun i hmem => ?_, h.resource⟩
  obtain ⟨d, hd, heq⟩ := mem_map.mp hmem
  have hle := h.bufs d hd
  have : d.buf = buf := heq
  omega

structure AtNode (K : Scheme ν τ α) (nodes₀ : ℤ → ν) (ends : ℕ → List ℕ) (P : (ℤ → ν) × α → Prop)
    (known : List Transfer) (l : List (DmaRes × Transfer)) (r : ℕ) (c : Cursor)
    (m : Machine (World ν α) DmaRes Transfer) : Prop where
  cursor : c.At 0 1 K.count r
  ready : Ready K.fixed nodes₀ ends P (K.nodes.current r c :: known) (K.nodes.ahead r c ++ l) m

variable {P : (ℤ → ν) × α → Prop} {w : World ν α} {x : DmaRes × Transfer} {t : τ}
  {base ping numPongs : ℕ} {lists : List Transfer} {nd : Option ν}

section
variable (h : AtNode K nodes₀ ends P known l r c m)
include h

lemma AtNode.copy_fixed : K.fixed (copy c m.world) = K.fixed (nodes₀ r) :=
  copy_eq h.cursor (h.ready.loaded.2 _ mem_cons_self)

lemma AtNode.peek
    (hP : ∀ x, P x → Kept K.fixed nodes₀ x.1) : AtNode K nodes₀ ends P known l r c (peek ends c.ping m) :=
  ⟨h.cursor, Ready.peek h.ready hP mem_cons_self⟩

lemma AtNode.mono {Q : (ℤ → ν) × α → Prop}
    (hQ : ∀ x, Q x → Kept K.fixed nodes₀ x.1) (hPQ : ∀ x, P x → Q x) : AtNode K nodes₀ ends Q known l r c m :=
  ⟨h.cursor, h.ready.mono (fills ends hQ) fun w => hPQ w.data⟩

end

lemma refill_atNode (hP : ∀ x, P x → Kept K.fixed nodes₀ x.1) (hcount : 0 < K.count)
    (hothers : Others known l) (hc : c.Before 0 1 K.count r)
    (h : Ready K.fixed nodes₀ ends P (K.nodes.loaded r c ++ known) (K.nodes.ahead r c ++ l) m) :
    AtNode K nodes₀ ends P known l r (K.nodes.refill (engine ends) r c m).1
      (Graphs.peek ends (K.nodes.refill (engine ends) r c m).1.ping (K.nodes.refill (engine ends) r c m).2) := by
  refine AtNode.peek ⟨Stream.refill_at (S := K.nodes) hc hcount, ?_⟩ hP
  exact h.refill hc rfl (hothers.free (by decide)) (hothers.free (by decide)) fun _ _ => by
    simp [nodes, nodesStream, Transfer.buf]

structure Starts (P : (ℤ → ν) × α → Prop) (s : Walk ν α) : Prop where
  bufs : (s.node.ping = 0 ∧ s.node.pong = 1) ∨ (s.node.ping = 1 ∧ s.node.pong = 0)
  data : P s.machine.world.data
  pending : s.machine.pending = []
  calm : s.machine.mishaps = []

lemma Starts.boot (h : P w.data) : Starts P (Walk.boot (Machine.boot w)) :=
  ⟨.inl ⟨rfl, rfl⟩, h, rfl, rfl⟩

structure Before (K : Scheme ν τ α) (nodes₀ : ℤ → ν) (ends : ℕ → List ℕ) (P : (ℤ → ν) × α → Prop) (r : ℕ)
    (s : Walk ν α) : Prop where
  cursor : s.node.Before 0 1 K.count r
  ready : Ready K.fixed nodes₀ ends P (K.nodes.loaded r s.node ++ []) (K.nodes.ahead r s.node ++ []) s.machine

lemma Starts.before {s : Walk ν α} (h : Starts P s)
    (hP : ∀ x, P x → Kept K.fixed nodes₀ x.1) : Before K nodes₀ ends P 0 (K.start ends s) := by
  have hpong : s.node.pong < 2 := by
    have := h.bufs
    omega
  refine ⟨⟨h.bufs, le_rfl, fun hlt => absurd hlt (lt_irrefl _)⟩, ?_⟩
  exact (Runs.start (fills ends hP) h.data h.pending h.calm).start_stream rfl (Others.nil.free hpong)

lemma AtNode.before (h : AtNode K nodes₀ ends P [] [] r c m) :
    Before K nodes₀ ends P (r + 1) ⟨c.next, m⟩ :=
  ⟨h.cursor.next, h.ready.advance⟩

/-! ## Lists from memory -/

lemma AtNode.directEdges (h : AtNode K nodes₀ ends (I r 0) known l r c m) (hI : K.Keeps nodes₀ n I)
    (hr : r < n) (hwanted : K.wanted (K.fixed (nodes₀ r)) = true) :
    AtNode K nodes₀ ends (I (r + 1) 0) known l r c
      (loop (K.directEdge ends c) (K.degree (K.fixed (nodes₀ r))) m) := by
  have hloop : AtNode K nodes₀ ends (I r (K.degree (K.fixed (nodes₀ r)))) known l r c
      (loop (K.directEdge ends c) (K.degree (K.fixed (nodes₀ r))) m) := by
    refine loop_inv (fun j => AtNode K nodes₀ ends (I r j) known l r c) h fun j m hj hm => ⟨hm.cursor, ?_⟩
    refine Ready.useBufs hm.ready (by simp; exact .inl rfl) _ (hI.kept r (j + 1)) fun w hw hpost => ?_
    have hcopy : K.fixed (copy c w) = K.fixed (nodes₀ r) := copy_eq hm.cursor (hpost _ mem_cons_self)
    refine hI.edge r hr j _ _ _ hw hwanted hj hcopy fun i _ => ?_
    rw [hcopy]
  exact hloop.mono (hI.kept (r + 1) 0) fun x hx => hI.next r hr x hwanted hx

lemma Before.directNode {s : Walk ν α} (h : Before K nodes₀ ends (I r 0) r s)
    (hI : K.Keeps nodes₀ n I)
    (hcount : 0 < K.count) (hr : r < n) : Before K nodes₀ ends (I (r + 1) 0) (r + 1) (K.directNode ends r s) := by
  have hat := refill_atNode (hI.kept r 0) hcount Others.nil h.cursor h.ready
  unfold Scheme.directNode
  generalize K.nodes.refill (engine ends) r s.node s.machine = q at hat
  obtain ⟨c, m⟩ := q
  dsimp only at hat ⊢
  rw [hat.copy_fixed]
  split
  · exact (hat.directEdges hI hr ‹_›).before
  · rename_i hno
    exact (hat.mono (hI.kept (r + 1) 0) fun x hx => hI.skip r hr x (Bool.eq_false_iff.mpr hno) hx).before

structure Ends (P : (ℤ → ν) × α → Prop) (s : Walk ν α) : Prop where
  bufs : (s.node.ping = 0 ∧ s.node.pong = 1) ∨ (s.node.ping = 1 ∧ s.node.pong = 0)
  data : P s.machine.world.data
  pending : ∀ x ∈ s.machine.pending, x.1 = .res0 ∧ x.2.IsRead
  calm : s.machine.mishaps = []

lemma mem_ahead (hx : x ∈ K.nodes.ahead r c) : x.1 = .res0 ∧ x.2.IsRead ∧ x.2.buf = c.pong := by
  unfold Stream.ahead at hx
  split at hx
  · rw [mem_singleton.mp hx]
    exact ⟨rfl, trivial, rfl⟩
  · exact absurd hx not_mem_nil

lemma ends_of_ready (hc : c.Before 0 1 K.count r)
    (h : Ready K.fixed nodes₀ ends P known (K.nodes.ahead r c ++ []) m) : Ends P ⟨c, m⟩ := by
  refine ⟨hc.bufs, h.loaded.1, fun x hx => ?_, h.calm⟩
  have hmem := h.awaits.known x hx
  rw [append_nil] at hmem
  exact ⟨(mem_ahead hmem).1, (mem_ahead hmem).2.1⟩

lemma direct_ends {s : Walk ν α} (hI : K.Keeps nodes₀ n I) (hcount : 0 < K.count)
    (hs : Starts (I 0 0) s) : Ends (I n 0) (K.direct ends n s) := by
  have hloop : Before K nodes₀ ends (I n 0) n (K.direct ends n s) :=
    loop_inv (fun r => Before K nodes₀ ends (I r 0) r) (hs.before (hI.kept 0 0))
      fun r s hr hs => hs.directNode hI hcount hr
  exact ends_of_ready hloop.cursor hloop.ready

/-! ## Lists by DMA -/

structure Sound (K : Scheme ν τ α) : Prop where
  count : 0 < K.count
  nodup : K.resources.Nodup
  res0 : DmaRes.res0 ∉ K.resources

lemma mem_listTransfers (hx : x ∈ K.listTransfers t base) :
    ∃ i < K.resources.length, x.1 ∈ K.resources ∧ x.2 = .readWords (K.content i t) (K.degree t) (base + i) := by
  obtain ⟨y, hy, rfl⟩ := mem_map.mp hx
  obtain ⟨-, hlt, hget⟩ := mem_zipIdx hy
  refine ⟨y.2, by omega, ?_, rfl⟩
  change y.1 ∈ K.resources
  rw [hget]
  exact getElem_mem _

lemma listTransfers_fst (t : τ) (base : ℕ) : (K.listTransfers t base).map Prod.fst = K.resources := by
  unfold listTransfers
  rw [map_map]
  exact zipIdx_map_fst ..

lemma listTransfers_buf (t : τ) (base : ℕ) :
    ((K.listTransfers t base).map Prod.snd).map Transfer.buf = K.listBufs base := by
  have hsnd : K.resources.zipIdx.map Prod.snd = range K.resources.length := by
    rw [zipIdx_map_snd, range_eq_range']
  unfold listTransfers listBufs
  rw [← hsnd, map_map, map_map, map_map]
  rfl

lemma listBufs_nodup (base : ℕ) : (K.listBufs base).Nodup :=
  (nodup_map_iff (add_right_injective base)).mpr nodup_range

lemma mem_listBufs {k : ℕ} : k ∈ K.listBufs base ↔ base ≤ k ∧ k < base + K.resources.length := by
  unfold listBufs
  rw [mem_map]
  constructor
  · rintro ⟨i, hi, rfl⟩
    rw [mem_range] at hi
    omega
  · rintro ⟨hle, hlt⟩
    exact ⟨k - base, mem_range.mpr (by omega), by omega⟩

lemma words_eq {j : ℕ}
    (hpost : ∀ d ∈ (K.listTransfers t base).map Prod.snd, post K.fixed nodes₀ d w) (hj : j < K.degree t) :
    ∀ i < K.resources.length, w.wordBuf (base + i) j = K.content i t j := by
  intro i hi
  have hmem : (K.resources[i], Transfer.readWords (K.content i t) (K.degree t) (base + i)) ∈ K.listTransfers t base :=
    mem_map.mpr ⟨(K.resources[i], i), mk_mem_zipIdx_iff_getElem?.mpr (getElem?_eq_getElem hi), rfl⟩
  exact hpost _ (mem_map_of_mem hmem) j hj

lemma requestLists_ready (hK : K.Sound)
    (h : Ready K.fixed nodes₀ ends P known l m) (t : τ) (hl : ∀ x ∈ l, x.1 ∉ K.resources)
    (hbufs : ∀ d ∈ known ++ l.map Prod.snd, d.buf ∉ K.listBufs base) :
    Ready K.fixed nodes₀ ends P known (l ++ K.listTransfers t base) (K.requestLists ends t base m) := by
  refine h.requests (fun x hx => ?_) ?_ ?_
  · obtain ⟨i, -, -, hx⟩ := mem_listTransfers hx
    rw [hx]
    trivial
  · rw [map_append, listTransfers_fst, nodup_append]
    refine ⟨h.resources, hK.nodup, ?_⟩
    rintro a ha b hb rfl
    obtain ⟨x, hx, rfl⟩ := mem_map.mp ha
    exact hl x hx hb
  · have hsplit : known ++ (l ++ K.listTransfers t base).map Prod.snd =
        known ++ l.map Prod.snd ++ (K.listTransfers t base).map Prod.snd := by
      rw [map_append, append_assoc]
    rw [hsplit, map_append, listTransfers_buf, nodup_append]
    refine ⟨h.places, listBufs_nodup base, ?_⟩
    rintro a ha b hb rfl
    obtain ⟨d, hd, rfl⟩ := mem_map.mp ha
    exact hbufs d hd hb

lemma AtNode.requestLists (hK : K.Sound) (hbase : 2 ≤ base)
    (h : AtNode K nodes₀ ends P known [] r c m) (t : τ) (hknown : ∀ d ∈ known, d.buf ∉ K.listBufs base) :
    AtNode K nodes₀ ends P known (K.listTransfers t base) r c (K.requestLists ends t base m) := by
  have hbufs := h.cursor.bufs
  refine ⟨h.cursor, ?_⟩
  have hready := h.ready
  rw [append_nil] at hready
  refine requestLists_ready hK hready t (fun x hx hmem => ?_) fun d hd hmem => ?_
  · rw [(mem_ahead hx).1] at hmem
    exact hK.res0 hmem
  · rcases mem_append.mp hd with hd | hd
    · rcases mem_cons.mp hd with rfl | hd
      · have hping : base ≤ c.ping := (mem_listBufs.mp hmem).1
        omega
      · exact hknown d hd hmem
    · obtain ⟨x, hx, rfl⟩ := mem_map.mp hd
      have hpong := (mem_listBufs.mp hmem).1
      rw [(mem_ahead hx).2.2] at hpong
      omega

lemma AtNode.waitLists (hK : K.Sound) (h : AtNode K nodes₀ ends P known l r c m)
    (hl : ∀ x ∈ l, x.1 ∈ K.resources) :
    AtNode K nodes₀ ends P (known ++ l.map Prod.snd) [] r c ((engine ends).wait K.resources m) := by
  refine ⟨h.cursor, ?_⟩
  rw [append_nil]
  exact h.ready.wait_append (fun x hx hmem => hK.res0 ((mem_ahead hx).1 ▸ hmem)) hl

lemma AtNode.forget (h : AtNode K nodes₀ ends P known l r c m) :
    AtNode K nodes₀ ends P [] l r c m :=
  ⟨h.cursor, h.ready.forget (by simp)⟩

lemma AtNode.fetchedEdges (hI : K.Keeps nodes₀ n I) (hr : r < n)
    (hwanted : K.wanted (K.fixed (nodes₀ r)) = true)
    (h : AtNode K nodes₀ ends (I r 0) ((K.listTransfers (K.fixed (nodes₀ r)) base).map Prod.snd) l r c m) :
    AtNode K nodes₀ ends (I (r + 1) 0) [] l r c
      (loop (K.fetchedEdge ends c base) (K.degree (K.fixed (nodes₀ r))) m) := by
  have hloop : AtNode K nodes₀ ends (I r (K.degree (K.fixed (nodes₀ r))))
      ((K.listTransfers (K.fixed (nodes₀ r)) base).map Prod.snd) l r c
      (loop (K.fetchedEdge ends c base) (K.degree (K.fixed (nodes₀ r))) m) := by
    refine loop_inv (fun j =>
      AtNode K nodes₀ ends (I r j) ((K.listTransfers (K.fixed (nodes₀ r)) base).map Prod.snd) l r c) h
      fun j m hj hm => ⟨hm.cursor, Ready.useBufs hm.ready ?_ _ (hI.kept r (j + 1)) fun w hw hpost => ?_⟩
    · intro k hk
      rw [map_cons, listTransfers_buf]
      exact hk
    · have hcopy : K.fixed (copy c w) = K.fixed (nodes₀ r) := copy_eq hm.cursor (hpost _ mem_cons_self)
      exact hI.edge r hr j _ _ _ hw hwanted hj hcopy
        (words_eq (fun d hd => hpost d (mem_cons_of_mem _ hd)) hj)
  exact (hloop.mono (hI.kept (r + 1) 0) fun x hx => hI.next r hr x hwanted hx).forget

lemma Before.fetchedNode {s : Walk ν α} (h : Before K nodes₀ ends (I r 0) r s)
    (hI : K.Keeps nodes₀ n I) (hK : K.Sound) (hdegree : ∀ t, K.wanted t = false → K.degree t = 0)
    (hr : r < n) : Before K nodes₀ ends (I (r + 1) 0) (r + 1) (K.fetchedNode ends r s) := by
  have hat := refill_atNode (hI.kept r 0) hK.count Others.nil h.cursor h.ready
  unfold Scheme.fetchedNode
  generalize K.nodes.refill (engine ends) r s.node s.machine = q at hat
  obtain ⟨c, m⟩ := q
  dsimp only at hat ⊢
  rw [hat.copy_fixed]
  split
  · rename_i hyes
    have hlists := ((hat.requestLists hK le_rfl (K.fixed (nodes₀ r)) (by simp)).waitLists hK fun x hx => by
      obtain ⟨-, -, hmem, -⟩ := mem_listTransfers hx
      exact hmem).peek (hI.kept r 0)
    rw [hlists.copy_fixed]
    exact (hlists.fetchedEdges hI hr hyes).before
  · rename_i hno
    have hwait := (hat.waitLists hK (by simp)).peek (hI.kept r 0)
    rw [hwait.copy_fixed, hdegree _ (Bool.eq_false_iff.mpr hno)]
    exact (hwait.mono (hI.kept (r + 1) 0) fun x hx => hI.skip r hr x (Bool.eq_false_iff.mpr hno) hx).before

lemma fetched_ends {s : Walk ν α} (hI : K.Keeps nodes₀ n I) (hK : K.Sound)
    (hdegree : ∀ t, K.wanted t = false → K.degree t = 0) (hs : Starts (I 0 0) s) :
    Ends (I n 0) (K.fetched ends n s) := by
  have hloop : Before K nodes₀ ends (I n 0) n (K.fetched ends n s) :=
    loop_inv (fun r => Before K nodes₀ ends (I r 0) r) (hs.before (hI.kept 0 0))
      fun r s hr hs => hs.fetchedNode hI hK hdegree hr
  exact ends_of_ready hloop.cursor hloop.ready

/-! ## Lists by DMA, one node ahead -/

inductive Left (K : Scheme ν τ α) (nodes₀ : ℤ → ν) (I : ℕ → ℕ → (ℤ → ν) × α → Prop) (r ping numPongs : ℕ)
    (kept : Option ν) : List Transfer → ((ℤ → ν) × α → Prop) → Prop
  | none : numPongs = noPongs → Left K nodes₀ I r ping numPongs kept [] (I r 0)
  | node (r' : ℕ) (nd : ν) : r' < r → kept = some nd → K.fixed nd = K.fixed (nodes₀ r') →
    K.wanted (K.fixed (nodes₀ r')) = true → numPongs = K.degree (K.fixed (nodes₀ r')) →
    (∀ q, r' < q → q < r → K.wanted (K.fixed (nodes₀ q)) = false) →
    Left K nodes₀ I r ping numPongs kept ((K.listTransfers (K.fixed (nodes₀ r')) ping).map Prod.snd) (I r' 0)

lemma Keeps.skips {r' : ℕ} (hI : K.Keeps nodes₀ n I) {x : (ℤ → ν) × α} (hr : r ≤ n) (hle : r' ≤ r)
    (hskip : ∀ q, r' ≤ q → q < r → K.wanted (K.fixed (nodes₀ q)) = false) (hx : I r' 0 x) : I r 0 x := by
  induction r, hle using Nat.le_induction with
  | base => exact hx
  | succ q hq ih =>
    exact hI.skip q (by omega) x (hskip q hq (by omega)) (ih (by omega) fun q' hq' hlt => hskip q' hq' (by omega))

structure Counts (K : Scheme ν τ α) (nodes₀ : ℤ → ν) (n : ℕ) : Prop where
  lt : ∀ r < n, K.degree (K.fixed (nodes₀ r)) < 2 ^ 31
  counter : ∀ k < 2 ^ 31, K.counter k = k

lemma drain_ready {s : Ahead ν α} (hI : K.Keeps nodes₀ n I)
    (hN : K.Counts nodes₀ n) (hr : r ≤ n) (hleft : Left K nodes₀ I r s.ping s.numPongs s.kept lists P)
    (h : Ready K.fixed nodes₀ ends P (known ++ lists) l s.machine) :
    Ready K.fixed nodes₀ ends (I r 0) known l (K.drain ends s).machine ∧ (K.drain ends s).numPongs = noPongs := by
  unfold Scheme.drain
  cases hleft with
  | none hnum =>
    rw [if_neg (by simpa using hnum)]
    rw [append_nil] at h
    exact ⟨h, hnum⟩
  | node r' nd hlt hkept hfixed hwanted hnum hskip =>
    have hlt31 := hN.lt r' (by omega)
    rw [if_pos (by rw [hnum, noPongs]; omega)]
    refine ⟨?_, rfl⟩
    rw [hnum, hN.counter _ hlt31, hkept]
    have hloop : Ready K.fixed nodes₀ ends (I r' (K.degree (K.fixed (nodes₀ r'))))
        (known ++ (K.listTransfers (K.fixed (nodes₀ r')) s.ping).map Prod.snd) l
        (loop (K.aheadEdge ends (some nd) s.ping) (K.degree (K.fixed (nodes₀ r'))) s.machine) := by
      refine loop_inv (fun j => Ready K.fixed nodes₀ ends (I r' j)
        (known ++ (K.listTransfers (K.fixed (nodes₀ r')) s.ping).map Prod.snd) l) h
        fun j m hj hm => Ready.useBufs hm ?_ _ (hI.kept r' (j + 1)) fun w hw hpost => ?_
      · intro k hk
        rw [map_append, listTransfers_buf]
        exact mem_append_right _ hk
      · exact hI.edge r' (by omega) j _ _ _ hw hwanted hj hfixed
          (words_eq (fun d hd => hpost d (mem_append_right _ hd)) hj)
    refine (hloop.mono (fills ends (hI.kept r 0)) fun w hw => ?_).forget (sublist_append_left ..)
    exact hI.skips hr hlt (fun q hq hqr => hskip q (by omega) hqr) (hI.next r' (by omega) _ hwanted hw)

structure BeforeAhead (K : Scheme ν τ α) (nodes₀ : ℤ → ν) (ends : ℕ → List ℕ) (I : ℕ → ℕ → (ℤ → ν) × α → Prop)
    (r : ℕ) (s : Ahead ν α) : Prop where
  cursor : s.node.Before 0 1 K.count r
  bufs : (s.ping = 2 ∧ s.pong = 2 + K.resources.length) ∨ (s.ping = 2 + K.resources.length ∧ s.pong = 2)
  left : ∃ lists P, Left K nodes₀ I r s.ping s.numPongs s.kept lists P ∧
    Ready K.fixed nodes₀ ends P (K.nodes.loaded r s.node ++ lists) (K.nodes.ahead r s.node ++ []) s.machine

lemma Left.kept (h : Left K nodes₀ I r ping numPongs nd lists P) (hI : K.Keeps nodes₀ n I) :
    ∀ x, P x → Kept K.fixed nodes₀ x.1 := by
  cases h with
  | none _ => exact hI.kept r 0
  | node r' _ _ _ _ _ _ _ => exact hI.kept r' 0

lemma Left.bufs
    (h : Left K nodes₀ I r ping numPongs nd lists P) : ∀ d ∈ lists, ping ≤ d.buf ∧ d.buf < ping + K.resources.length := by
  intro d hd
  cases h with
  | none _ => exact absurd hd not_mem_nil
  | node _ _ _ _ _ _ _ _ =>
    rw [← mem_listBufs, ← listTransfers_buf]
    exact mem_map_of_mem hd

def newLists (K : Scheme ν τ α) (nodes₀ : ℤ → ν) (r base : ℕ) : List (DmaRes × Transfer) :=
  if K.wanted (K.fixed (nodes₀ r)) then K.listTransfers (K.fixed (nodes₀ r)) base else []

structure FetchedAhead (K : Scheme ν τ α) (nodes₀ : ℤ → ν) (ends : ℕ → List ℕ) (I : ℕ → ℕ → (ℤ → ν) × α → Prop)
    (r : ℕ) (s : Ahead ν α) : Prop where
  bufs : (s.ping = 2 ∧ s.pong = 2 + K.resources.length) ∨ (s.ping = 2 + K.resources.length ∧ s.pong = 2)
  left : ∃ lists P, Left K nodes₀ I r s.ping s.numPongs s.kept lists P ∧
    AtNode K nodes₀ ends P lists (newLists K nodes₀ r s.pong) r s.node s.machine

structure DrainedAhead (K : Scheme ν τ α) (nodes₀ : ℤ → ν) (ends : ℕ → List ℕ) (I : ℕ → ℕ → (ℤ → ν) × α → Prop)
    (r : ℕ) (s : Ahead ν α) : Prop where
  bufs : (s.ping = 2 ∧ s.pong = 2 + K.resources.length) ∨ (s.ping = 2 + K.resources.length ∧ s.pong = 2)
  numPongs : s.numPongs = noPongs
  atNode : AtNode K nodes₀ ends (I r 0) [] (newLists K nodes₀ r s.pong) r s.node s.machine

lemma BeforeAhead.fetchAhead {s : Ahead ν α} (h : BeforeAhead K nodes₀ ends I r s)
    (hI : K.Keeps nodes₀ n I)
    (hK : K.Sound) : FetchedAhead K nodes₀ ends I r (K.fetchAhead ends r s) := by
  obtain ⟨lists, P, hleft, hready⟩ := h.left
  have hbufs := h.bufs
  have hothers : Others lists [] := by
    refine ⟨not_mem_nil, fun d hd => ?_⟩
    have := hleft.bufs d (by simpa using hd)
    omega
  have hat := refill_atNode (hleft.kept hI) hK.count hothers h.cursor hready
  unfold Scheme.fetchAhead
  generalize K.nodes.refill (engine ends) r s.node s.machine = q at hat
  obtain ⟨c, m⟩ := q
  dsimp only at hat ⊢
  rw [hat.copy_fixed]
  refine ⟨hbufs, lists, P, hleft, ?_⟩
  unfold newLists
  split
  · refine hat.requestLists hK (by dsimp only; omega) (K.fixed (nodes₀ r)) fun d hd hmem => ?_
    have hold := hleft.bufs d hd
    have hnew := mem_listBufs.mp hmem
    dsimp only at hnew
    omega
  · exact hat

lemma drain_same (s : Ahead ν α) : (K.drain ends s).ping = s.ping ∧ (K.drain ends s).pong = s.pong ∧
    (K.drain ends s).node = s.node := by
  unfold Scheme.drain
  split
  · exact ⟨rfl, rfl, rfl⟩
  · exact ⟨rfl, rfl, rfl⟩

lemma FetchedAhead.drain {s : Ahead ν α} (h : FetchedAhead K nodes₀ ends I r s)
    (hI : K.Keeps nodes₀ n I)
    (hN : K.Counts nodes₀ n) (hr : r < n) : DrainedAhead K nodes₀ ends I r (K.drain ends s) := by
  obtain ⟨lists, P, hleft, hat⟩ := h.left
  obtain ⟨hping, hpong, hnode⟩ := drain_same (K := K) s
  have hbefore : Ready K.fixed nodes₀ ends P ([K.nodes.current r s.node] ++ lists) _ s.machine := hat.ready
  obtain ⟨hready, hnum⟩ := drain_ready hI hN hr.le hleft hbefore
  refine ⟨by rw [hping, hpong]; exact h.bufs, hnum, ?_⟩
  rw [hpong, hnode]
  exact ⟨hat.cursor, hready⟩

lemma DrainedAhead.takeOver {s : Ahead ν α} (h : DrainedAhead K nodes₀ ends I r s)
    (hI : K.Keeps nodes₀ n I) (hK : K.Sound) (hN : K.Counts nodes₀ n) (hr : r < n) :
    BeforeAhead K nodes₀ ends I (r + 1) (K.takeOver ends s) := by
  have hat := h.atNode.peek (hI.kept r 0)
  have hcopy := hat.copy_fixed
  unfold Scheme.takeOver
  dsimp only
  rw [hcopy]
  split
  · rename_i hyes
    rw [newLists, if_pos hyes] at hat
    have hwait := hat.waitLists hK fun x hx => by
      obtain ⟨-, -, hmem, -⟩ := mem_listTransfers hx
      exact hmem
    have hlt := hN.lt r hr
    refine ⟨hwait.cursor.next, Or.imp And.symm And.symm (Or.symm h.bufs), _, I r 0, ?_, hwait.ready.advance⟩
    rw [Nat.mod_eq_of_lt (by omega)]
    exact .node r _ (by omega) rfl hcopy hyes rfl fun q hq hqr => by omega
  · rename_i hno
    rw [newLists, if_neg hno] at hat
    have hnext := hat.mono (hI.kept (r + 1) 0) fun x hx => hI.skip r hr x (Bool.eq_false_iff.mpr hno) hx
    exact ⟨hnext.cursor.next, h.bufs, [], I (r + 1) 0, .none h.numPongs, hnext.ready.advance⟩

lemma BeforeAhead.node {s : Ahead ν α} (h : BeforeAhead K nodes₀ ends I r s) (hI : K.Keeps nodes₀ n I)
    (hK : K.Sound) (hN : K.Counts nodes₀ n) (hr : r < n) :
    BeforeAhead K nodes₀ ends I (r + 1) (K.aheadNode ends r s) :=
  ((h.fetchAhead hI hK).drain hI hN hr).takeOver hI hK hN hr

lemma ahead_ends {s : Walk ν α} (hI : K.Keeps nodes₀ n I) (hK : K.Sound) (hN : K.Counts nodes₀ n)
    (hs : Starts (I 0 0) s) : Ends (I n 0) (K.ahead ends n s) := by
  have hstart : Before K nodes₀ ends (I 0 0) 0 (K.start ends s) := hs.before (hI.kept 0 0)
  have hahead : BeforeAhead K nodes₀ ends I 0
      ⟨(K.start ends s).node, 2, 2 + K.resources.length, noPongs, none, (K.start ends s).machine⟩ :=
    ⟨hstart.cursor, .inl ⟨rfl, rfl⟩, [], I 0 0, .none rfl, hstart.ready⟩
  have hloop : BeforeAhead K nodes₀ ends I n (loop (K.aheadNode ends) n _) :=
    loop_inv (BeforeAhead K nodes₀ ends I) hahead fun r s hr hs => hs.node hI hK hN hr
  obtain ⟨lists, P, hleft, hready⟩ := hloop.left
  have hdrain := (drain_ready hI hN le_rfl hleft hready).1
  have hend := ends_of_ready hloop.cursor hdrain
  rw [← (drain_same _).2.2] at hend
  exact hend

end Scheme

end SmcPim.Graphs
