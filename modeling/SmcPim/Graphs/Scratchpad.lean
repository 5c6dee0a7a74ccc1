import SmcPim.Resident
import SmcPim.Lib.Stream

/-!
# The scratchpad of the graph kernels

The buffers of the kernels in `SW/PIM/kernels` are `MAX_XFER_SIZE` bytes apart and no transfer is
longer, so that each is a memory of its own, known by its number.
-/

namespace SmcPim.Graphs

open Engine

/-- `MAX_XFER_SIZE`, from `UTILS/models/system/gem5_pim.sh`. -/
def maxXferSize : ℕ := 512

/-- The nodes and what lies around them, the registers of the processor, and the buffers. -/
structure World (ν α : Type) where
  nodes : ℤ → ν
  acc : α
  nodeBuf : ℕ → ℕ → ν
  wordBuf : ℕ → ℕ → ℕ

inductive Transfer
  | readNodes (index : ℤ) (count buf : ℕ)
  | writeNodes (index : ℤ) (count buf : ℕ)
  | readWords (list : ℕ → ℕ) (count buf : ℕ)

namespace Transfer

def buf : Transfer → ℕ
  | readNodes _ _ k => k
  | writeNodes _ _ k => k
  | readWords _ _ k => k

def IsRead : Transfer → Prop
  | writeNodes _ _ _ => False
  | _ => True

end Transfer

def fill {β : Type} (n : ℕ) (f old : ℕ → β) : ℕ → β := fun j => if j < n then f j else old j

variable {ν α : Type}

def effect : Transfer → World ν α → World ν α
  | .readNodes i n k, w =>
    { w with nodeBuf := Function.update w.nodeBuf k (fill n (fun j => w.nodes (i + j)) (w.nodeBuf k)) }
  | .writeNodes i n k, w =>
    { w with nodes := fun j => if i ≤ j ∧ j < i + n then w.nodeBuf k (j - i).toNat else w.nodes j }
  | .readWords f n k, w =>
    { w with wordBuf := Function.update w.wordBuf k (fill n f (w.wordBuf k)) }

def engine (ends : ℕ → List ℕ) : Engine (World ν α) Transfer where
  effect := effect
  meets d d' := d.buf == d'.buf
  ends := ends

def World.data (w : World ν α) : (ℤ → ν) × α := (w.nodes, w.acc)

def useBufs (ends : ℕ → List ℕ) (ks : List ℕ) (f : World ν α → (ℤ → ν) × α)
    (m : Machine (World ν α) DmaRes Transfer) : Machine (World ν α) DmaRes Transfer :=
  (engine ends).act (fun d => d.buf ∈ ks) (fun w => { w with nodes := (f w).1, acc := (f w).2 }) m

def peek (ends : ℕ → List ℕ) (k : ℕ) (m : Machine (World ν α) DmaRes Transfer) :
    Machine (World ν α) DmaRes Transfer := useBufs ends [k] World.data m

def nodesStream (count : ℕ) (fetch : ℕ → Bool) : Stream DmaRes Transfer where
  res := .res0
  chunk i k := .readNodes i count k
  count := count
  fetch := fetch

/-! ## What is read

`st` keeps of a node what no kernel changes. -/

section
variable {τ : Type} (st : ν → τ) (nodes₀ : ℤ → ν)

def post : Transfer → World ν α → Prop
  | .readNodes i n k, w => ∀ j < n, st (w.nodeBuf k j) = st (nodes₀ (i + j))
  | .writeNodes _ _ _, _ => True
  | .readWords f n k, w => ∀ j < n, w.wordBuf k j = f j

def Kept (nodes : ℤ → ν) : Prop := ∀ i, st (nodes i) = st (nodes₀ i)

def World.Has (P : (ℤ → ν) × α → Prop) (w : World ν α) : Prop := P w.data

abbrev Ready (ends : ℕ → List ℕ) (P : (ℤ → ν) × α → Prop) (known : List Transfer) (l : List (DmaRes × Transfer))
    (m : Machine (World ν α) DmaRes Transfer) : Prop :=
  Runs (engine ends) (post st nodes₀) Transfer.buf Transfer.IsRead (World.Has P) known l m

end

lemma fill_of_lt {β : Type} {n j : ℕ} {f old : ℕ → β} (hj : j < n) : fill n f old j = f j := if_pos hj

section
variable {τ : Type} {st : ν → τ} {nodes₀ : ℤ → ν} {P : (ℤ → ν) × α → Prop}

lemma fills (ends : ℕ → List ℕ) (hP : ∀ x, P x → Kept st nodes₀ x.1) :
    Fills (engine ends) (post st nodes₀) Transfer.buf Transfer.IsRead (World.Has P) where
  inv d hd w hw := by
    cases d with
    | readNodes i n k => exact hw
    | writeNodes i n k => exact absurd hd id
    | readWords f n k => exact hw
  gives d hd w hw := by
    cases d with
    | readNodes i n k =>
      intro j hj
      simp only [engine, effect, Function.update_self]
      rw [fill_of_lt hj]
      exact hP _ hw _
    | writeNodes i n k => exact absurd hd id
    | readWords f n k =>
      intro j hj
      simp only [engine, effect, Function.update_self]
      exact fill_of_lt hj
  keep d d' hd hd' hplace w hw hpost := by
    cases d with
    | readNodes i n k =>
      cases d' with
      | readNodes i' n' k' =>
        intro j hj
        have hk : k' ≠ k := Ne.symm hplace
        simp only [engine, effect, Function.update_of_ne hk]
        exact hpost j hj
      | writeNodes i' n' k' => trivial
      | readWords f' n' k' => exact hpost
    | writeNodes i n k => exact absurd hd id
    | readWords f n k =>
      cases d' with
      | readNodes i' n' k' => exact hpost
      | writeNodes i' n' k' => trivial
      | readWords f' n' k' =>
        intro j hj
        have hk : k' ≠ k := Ne.symm hplace
        simp only [engine, effect, Function.update_of_ne hk]
        exact hpost j hj
  meets d d' hplace := by simpa [engine] using hplace

variable {ends : ℕ → List ℕ} {known : List Transfer} {l : List (DmaRes × Transfer)}
  {m : Machine (World ν α) DmaRes Transfer} {w : World ν α}

lemma Ready.useBufs (h : Ready st nodes₀ ends P known l m) {ks : List ℕ}
    (hks : ∀ k ∈ ks, k ∈ known.map Transfer.buf)
    (P' : (ℤ → ν) × α → Prop) (hP' : ∀ x, P' x → Kept st nodes₀ x.1) {f : World ν α → (ℤ → ν) × α}
    (hf : ∀ w, P w.data → (∀ d ∈ known, post st nodes₀ d w) → P' (f w)) :
    Ready st nodes₀ ends P' known l (Graphs.useBufs ends ks f m) := by
  refine h.act (fills ends hP') hf (fun d w _ hpost => ?_) fun x hx => ?_
  · cases d <;> exact hpost
  · rw [decide_eq_false_iff_not]
    intro hmem
    obtain ⟨d, hd, heq⟩ := List.mem_map.mp (hks _ hmem)
    exact h.place_known_ne hx hd heq.symm

lemma Ready.peek (h : Ready st nodes₀ ends P known l m) (hP : ∀ x, P x → Kept st nodes₀ x.1)
    {k : ℕ} (hk : k ∈ known.map Transfer.buf) : Ready st nodes₀ ends P known l (Graphs.peek ends k m) :=
  Ready.useBufs h (by simpa using hk) P hP fun _ hw _ => hw

lemma copy_eq {count r : ℕ} {fetch : ℕ → Bool} {c : Cursor} {a b : ℕ} (hc : c.At a b count r)
    (hpost : post st nodes₀ ((nodesStream count fetch).current r c) w) :
    st (w.nodeBuf c.ping c.pos) = st (nodes₀ r) := by
  have hcopy := hpost c.pos hc.lt
  have hindex : ((r - c.pos : ℕ) : ℤ) + (c.pos : ℤ) = r := by
    have := hc.back
    omega
  rwa [hindex] at hcopy

end

end SmcPim.Graphs
