import SmcPim.PimList.HostList
import SmcPim.PimList.Kernel

/-!
# The test of the linked list

From `SW/HOST/app/linked_list/main.cc`: random operations go to the PIM and to a list of the host,
and the program ends when the two answer differently.
-/

namespace SmcPim.PimList

open Layout Nat Finset SetOp

structure Params where
  keyLowerBound : Nat
  keyUpperBound : Nat
  maxListSize : Nat
  initialListSize : Nat
  totalNumOps : Nat
  readOnlyPercentage : Nat

/-- The bounds of `4-linked-list.sh`; the others are left to the user. -/
def Params.shipped (initialListSize totalNumOps readOnlyPercentage : Nat) : Params where
  keyLowerBound := 1
  keyUpperBound := 512
  maxListSize := 512
  initialListSize := initialListSize
  totalNumOps := totalNumOps
  readOnlyPercentage := readOnlyPercentage

/-- The loop that fills the list, the loop that tests it, and the ways to end. -/
inductive Phase
  | populate
  | operate
  | done
  | disagreed
  | stuck
  deriving DecidableEq

structure Control where
  opCount : Nat
  drawn : Nat
  phase : Phase

structure Test where
  mem : Memory
  list : LinkedList Nat
  size : Int
  control : Control

namespace Params

variable (P : Params) (rand : Nat → Nat) (size : Int) (c : Control)

def range : Nat := P.keyUpperBound - P.keyLowerBound

def keyValue (r : Nat) : Nat := r % P.range + P.keyLowerBound

def operation (r r' : Nat) : SetOp Nat :=
  let keyValue := P.keyValue r
  let randTemp := r' % 100 + 1
  if randTemp ≤ P.readOnlyPercentage then .contains keyValue
  else if P.readOnlyPercentage + (100 - P.readOnlyPercentage) / 2 < randTemp then
    if 0 < size then .remove keyValue else .add keyValue
  else if size < P.maxListSize then .add keyValue
  else .remove keyValue

def sends : Option (SetOp Nat) :=
  match c.phase with
  | .populate =>
    if size < P.initialListSize then some (.add (P.keyValue (rand c.drawn))) else none
  | .operate =>
    if c.opCount < P.totalNumOps then
      some (P.operation size (rand c.drawn) (rand (c.drawn + 1)))
    else none
  | _ => none

def advance : Control :=
  match c.phase with
  | .populate =>
    if size < P.initialListSize then { c with drawn := c.drawn + 1 } else { c with phase := .operate }
  | .operate =>
    if c.opCount < P.totalNumOps then { c with opCount := c.opCount + 1, drawn := c.drawn + 2 }
    else { c with phase := .done }
  | _ => c

end Params

namespace Test

variable (P : Params) (L : Layout) (A : Allocator) (fuel : Nat) (rand : Nat → Nat)

def newSize (size : Int) (torf : Bool) : SetOp Nat → Int
  | .add _ => if torf then size + 1 else size
  | .remove _ => if torf then size - 1 else size
  | .contains _ => size

def exchange (t : Test) (op : SetOp Nat) : Test :=
  match L.perform t.mem fuel op, t.list.call A op with
  | .ok (mem, pimRes), some (list, torf) =>
    let cmpRes := if torf then 1 else 0
    { mem, list, size := newSize t.size torf op,
      control := if cmpRes ≠ pimRes then { t.control with phase := .disagreed } else t.control }
  | _, _ => { t with control := { t.control with phase := .stuck } }

def step (t : Test) : Test :=
  let t' := { t with control := P.advance t.size t.control }
  match P.sends rand t.size t.control with
  | some op => t'.exchange L A fuel op
  | none => t'

/-- The state after `n` rounds, unless the program ends before the first. -/
def main (m : Memory) (data next : Nat → Nat) (n : Nat) : Option Test :=
  if P.maxListSize < P.initialListSize then none
  else if P.range < P.initialListSize then none
  else
    match L.start m fuel with
    | .error _ => none
    | .ok mem => some ((step P L A fuel rand)^[n]
        { mem, list := .make data next, size := 0, control := ⟨0, 0, .populate⟩ })

end Test

/-! ## The same test of a set -/

structure SetTest where
  keys : Finset Nat
  control : Control

namespace SetTest

variable (P : Params) (rand : Nat → Nat)

def step (s : SetTest) : SetTest where
  keys := match P.sends rand s.keys.card s.control with
    | some op => op.after s.keys
    | none => s.keys
  control := P.advance s.keys.card s.control

def after (n : Nat) : SetTest := (step P rand)^[n] ⟨∅, 0, 0, .populate⟩

lemma after_succ (n : Nat) : after P rand (n + 1) = step P rand (after P rand n) :=
  Function.iterate_succ_apply' ..

end SetTest

variable {P : Params} {L : Layout} {A : Allocator} {fuel : Nat} {rand : Nat → Nat}
  {t : Test} {s : SetTest} {op : SetOp Nat} {c : Control} {size : Int}

/-! ## One round -/

structure Params.Proper (P : Params) : Prop where
  lower : 0 < P.keyLowerBound
  range : 0 < P.range
  upper : P.keyUpperBound ≤ uint32Max

lemma Params.Proper.keyValue (h : P.Proper) (r : Nat) :
    P.keyLowerBound ≤ P.keyValue r ∧ P.keyValue r < P.keyUpperBound := by
  have hlt := mod_lt r h.range
  unfold Params.keyValue
  unfold Params.range at hlt ⊢
  omega

lemma Params.key_sends (h : P.sends rand size c = some op) : ∃ r, op.key = P.keyValue r := by
  unfold sends at h
  split at h
  · split at h
    · exact ⟨_, by rw [← Option.some.inj h]; rfl⟩
    · cases h
  · split at h
    · refine ⟨rand c.drawn, ?_⟩
      rw [← Option.some.inj h]
      unfold operation
      dsimp only
      split_ifs <;> rfl
    · cases h
  · cases h

lemma Params.advance_phase (h : c.phase ≠ .disagreed ∧ c.phase ≠ .stuck) :
    (P.advance size c).phase ≠ .disagreed ∧ (P.advance size c).phase ≠ .stuck := by
  unfold advance
  split
  · split
    · exact h
    · exact ⟨by simp, by simp⟩
  · split
    · exact h
    · exact ⟨by simp, by simp⟩
  · exact h

structure Agrees (L : Layout) (t : Test) (s : SetTest) : Prop where
  heap : ∃ live free, Heap L t.mem live free ∧ keys L t.mem live = s.keys
  list : ∃ nodes, t.list.Shape nodes ∧ t.list.content nodes = s.keys
  size : t.size = s.keys.card
  control : t.control = s.control
  fine : t.control.phase ≠ .disagreed ∧ t.control.phase ≠ .stuck

lemma newSize_eq {S : Finset Nat} : Test.newSize S.card (op.answer S) op = (op.after S).card := by
  cases op with
  | contains k => rfl
  | add k =>
    by_cases hk : k ∈ S
    · simp [Test.newSize, answer, after, hk]
    · simp [Test.newSize, answer, after, hk]
  | remove k =>
    by_cases hk : k ∈ S
    · have hpos := card_pos.mpr ⟨k, hk⟩
      simp only [Test.newSize, answer, after, hk, decide_true, if_true,
        card_erase_of_mem hk]
      omega
    · simp [Test.newSize, answer, after, hk]

lemma Agrees.exchange (h : Agrees L t s) (hfuel : L.numMemBlocks + 1 < fuel) (hpos : 0 < op.key)
    (hlt : op.key < uint32Max) :
    ∃ mem live free list nodes, Heap L mem live free ∧
      keys L mem live = op.afterIn L.numMemBlocks s.keys ∧ list.Shape nodes ∧
      list.content nodes = op.after s.keys ∧
      t.exchange L A fuel op = ⟨mem, list, (op.after s.keys).card,
        if op.answerIn L.numMemBlocks s.keys = op.answer s.keys then t.control
        else { t.control with phase := .disagreed }⟩ := by
  obtain ⟨live, free, hheap, hkeys⟩ := h.heap
  obtain ⟨nodes, hlist, hcontent⟩ := h.list
  have hzero : op = .contains 0 → 0 ∈ keys L t.mem live := by
    rintro rfl
    exact absurd hpos (lt_irrefl 0)
  obtain ⟨mem, live', free', heq, hheap', hkeys', -⟩ := hheap.perform hlt hzero hfuel
  obtain ⟨list, nodes', hcall, hlist', hcontent'⟩ := hlist.call_eq A op
  rw [hkeys] at heq hkeys'
  rw [hcontent] at hcall hcontent'
  refine ⟨mem, live', free', list, nodes', hheap', hkeys', hlist', hcontent', ?_⟩
  unfold Test.exchange
  rw [heq, hcall]
  dsimp only
  rw [h.size, newSize_eq]
  congr 1
  cases op.answerIn L.numMemBlocks s.keys <;> cases op.answer s.keys <;> simp

/-- The driver is about to send a key that the host does not have, and the PIM has no block for it. -/
def Test.SendsOverfull (P : Params) (L : Layout) (rand : Nat → Nat) (t : Test) : Prop :=
  ∃ k, P.sends rand t.size t.control = some (.add k) ∧ t.list.contains k = some false ∧
    L.readSreg t.mem 3 = 0

section
variable (h : Agrees L t s)
include h

lemma Agrees.card_le : s.keys.card ≤ L.numMemBlocks := by
  obtain ⟨live, free, hheap, hkeys⟩ := h.heap
  have hlen := hheap.length_eq
  rw [← hkeys, hheap.card_keys]
  omega

lemma Agrees.full_iff : L.readSreg t.mem 3 = 0 ↔ s.keys.card = L.numMemBlocks := by
  obtain ⟨live, free, hheap, hkeys⟩ := h.heap
  have hlen := hheap.length_eq
  rw [← hkeys, hheap.card_keys]
  cases free with
  | nil => exact iff_of_true (Chain.nil_iff.mp hheap.freeList) (by simpa using hlen)
  | cons x free =>
    have hx := (Chain.cons_iff.mp hheap.freeList).1
    have hpos := (hheap.node_free List.mem_cons_self).pos
    rw [List.length_cons] at hlen
    constructor
    · omega
    · omega

lemma Agrees.sends_eq : P.sends rand t.size t.control = P.sends rand s.keys.card s.control := by
  rw [h.size, h.control]

lemma Agrees.advance : Agrees L { t with control := P.advance t.size t.control }
    ⟨s.keys, P.advance s.keys.card s.control⟩ :=
  ⟨h.heap, h.list, h.size, by rw [h.size, h.control], Params.advance_phase h.fine⟩

lemma Agrees.step (hP : P.Proper) (hfuel : L.numMemBlocks + 1 < fuel)
    (hfit : (s.step P rand).keys.card ≤ L.numMemBlocks) :
    Agrees L (t.step P L A fuel rand) (s.step P rand) := by
  unfold SetTest.step at hfit ⊢
  unfold Test.step
  rw [h.sends_eq]
  cases hsends : P.sends rand s.keys.card s.control with
  | none => exact h.advance
  | some op =>
    rw [hsends] at hfit
    obtain ⟨r, hr⟩ := Params.key_sends hsends
    obtain ⟨hlower, hupper⟩ := hP.keyValue r
    rw [← hr] at hlower hupper
    obtain ⟨mem, live, free, list, nodes, hheap, hkeys, hlist, hcontent, heq⟩ :=
      h.advance.exchange (A := A) hfuel (lt_of_lt_of_le hP.lower hlower)
        (lt_of_lt_of_le hupper hP.upper)
    dsimp only
    rw [heq, if_pos (answerIn_eq hfit)]
    rw [afterIn_eq hfit] at hkeys
    exact ⟨⟨live, free, hheap, hkeys⟩, ⟨nodes, hlist, hcontent⟩, rfl, h.advance.control,
      h.advance.fine⟩

lemma Agrees.step_overfull (hP : P.Proper) (hfuel : L.numMemBlocks + 1 < fuel)
    (hfit : L.numMemBlocks < (s.step P rand).keys.card) :
    t.SendsOverfull P L rand ∧ (t.step P L A fuel rand).control.phase = .disagreed := by
  unfold SetTest.step at hfit
  cases hsends : P.sends rand s.keys.card s.control with
  | none =>
    rw [hsends] at hfit
    exact absurd hfit (not_lt.mpr h.card_le)
  | some op =>
    rw [hsends] at hfit
    obtain ⟨k, rfl, hk, hcard⟩ := eq_add_of_card_lt h.card_le hfit
    obtain ⟨r, hr⟩ := Params.key_sends hsends
    obtain ⟨hlower, hupper⟩ := hP.keyValue r
    rw [← hr] at hlower hupper
    constructor
    · obtain ⟨nodes, hlist, hcontent⟩ := h.list
      refine ⟨k, by rw [h.sends_eq, hsends], ?_, h.full_iff.mpr hcard⟩
      rw [hlist.contains_eq, hcontent, decide_eq_false hk]
    · obtain ⟨mem, live, free, list, nodes, -, -, -, -, heq⟩ :=
        h.advance.exchange (A := A) hfuel (lt_of_lt_of_le hP.lower hlower)
          (lt_of_lt_of_le hupper hP.upper)
      have hno : (add k).answerIn L.numMemBlocks s.keys ≠ (add k).answer s.keys := by
        simp [answerIn, answer, hk, hcard]
      unfold Test.step
      rw [h.sends_eq, hsends]
      dsimp only
      rw [heq, if_neg hno]

lemma Agrees.not_overfull
    (hfit : (s.step P rand).keys.card ≤ L.numMemBlocks) : ¬ t.SendsOverfull P L rand := by
  rintro ⟨k, hsends, hcontains, hzero⟩
  obtain ⟨nodes, hlist, hcontent⟩ := h.list
  rw [hlist.contains_eq, hcontent] at hcontains
  have hk : k ∉ s.keys := by simpa using hcontains
  rw [h.sends_eq] at hsends
  unfold SetTest.step at hfit
  rw [hsends] at hfit
  dsimp only [after] at hfit
  rw [card_insert_of_notMem hk, h.full_iff.mp hzero] at hfit
  exact absurd hfit (not_succ_le_self _)

end

/-! ## Whole runs -/

variable {m : Memory} {data next : Nat → Nat} {n : Nat}

def Test.begun (L : Layout) (m : Memory) (data next : Nat → Nat) : Test :=
  ⟨L.listInit (L.writeSreg m 0 0), .make data next, 0, 0, 0, .populate⟩

lemma main_eq_some (P : Params) (L : Layout) (A : Allocator) (fuel : Nat) (rand : Nat → Nat)
    (m : Memory) (data next : Nat → Nat) (hmax : P.initialListSize ≤ P.maxListSize)
    (hrange : P.initialListSize ≤ P.range) (n : Nat) :
    Test.main P L A fuel rand m data next n =
      some ((Test.step P L A fuel rand)^[n] (.begun L m data next)) := by
  unfold Test.main
  rw [if_neg (not_lt.mpr hmax), if_neg (not_lt.mpr hrange), start_eq]
  rfl

lemma eq_of_main (h : Test.main P L A fuel rand m data next n = some t) :
    t = (Test.step P L A fuel rand)^[n] (.begun L m data next) := by
  by_cases hinit : P.initialListSize ≤ P.maxListSize ∧ P.initialListSize ≤ P.range
  · rw [main_eq_some P L A fuel rand m data next hinit.1 hinit.2] at h
    exact (Option.some.inj h).symm
  · unfold Test.main at h
    split at h
    · cases h
    · split at h
      · cases h
      · exact absurd ⟨by omega, by omega⟩ hinit

lemma begun_agrees (L : Layout) (m : Memory) (data next : Nat → Nat) (P : Params)
    (rand : Nat → Nat) : Agrees L (.begun L m data next) (SetTest.after P rand 0) :=
  ⟨⟨[], _, Heap.listInit, rfl⟩, ⟨[], LinkedList.make_shape data next, rfl⟩, rfl, rfl,
    Phase.noConfusion, Phase.noConfusion⟩

lemma run_agrees (A : Allocator) (m : Memory) (data next : Nat → Nat) (hP : P.Proper)
    (hfuel : L.numMemBlocks + 1 < fuel)
    (hfit : ∀ i ≤ n, (SetTest.after P rand i).keys.card ≤ L.numMemBlocks) :
    Agrees L ((Test.step P L A fuel rand)^[n] (.begun L m data next)) (SetTest.after P rand n) := by
  induction n with
  | zero => exact begun_agrees L m data next P rand
  | succ n ih =>
    have hlast := hfit (n + 1) (le_refl _)
    rw [SetTest.after_succ] at hlast ⊢
    rw [Function.iterate_succ_apply']
    exact (ih fun i hi => hfit i (le_succ_of_le hi)).step hP hfuel hlast

lemma keys_subset (hP : P.Proper) (rand : Nat → Nat) (n : Nat) :
    (SetTest.after P rand n).keys ⊆ Finset.Ico P.keyLowerBound P.keyUpperBound := by
  induction n with
  | zero => exact empty_subset _
  | succ n ih =>
    rw [SetTest.after_succ]
    unfold SetTest.step
    cases hsends : P.sends rand (SetTest.after P rand n).keys.card (SetTest.after P rand n).control with
    | none => exact ih
    | some op =>
      intro k hk
      rcases mem_of_mem_after hk with rfl | hk
      · obtain ⟨r, hr⟩ := Params.key_sends hsends
        rw [hr]
        exact mem_Ico.mpr (hP.keyValue r)
      · exact ih hk

lemma shipped_proper (initialListSize totalNumOps readOnlyPercentage : Nat) :
    (Params.shipped initialListSize totalNumOps readOnlyPercentage).Proper where
  lower := one_pos
  range := show 0 < 512 - 1 by decide
  upper := show 512 ≤ uint32Max by decide

lemma numMemBlocks_shipped (hsize : L.vregSize = 4096) :
    (L.arch.bytes = 4 → L.numMemBlocks = 512) ∧ (L.arch.bytes = 8 → L.numMemBlocks = 256) := by
  unfold numMemBlocks blockSize
  rw [hsize]
  constructor
  · intro h
    rw [h]
  · intro h
    rw [h]

/-- With words of 4 bytes there is a block for each key, and no answer differs. -/
theorem test_never_disagrees (L : Layout) (hbytes : L.arch.bytes = 4) (hsize : L.vregSize = 4096)
    (A : Allocator) (fuel : Nat) (hfuel : L.numMemBlocks + 1 < fuel) (rand : Nat → Nat) (m : Memory)
    (data next : Nat → Nat) (initialListSize totalNumOps readOnlyPercentage n : Nat) (t : Test)
    (hmain : Test.main (.shipped initialListSize totalNumOps readOnlyPercentage) L A fuel rand m data
      next n = some t) :
    t.control.phase ≠ .disagreed ∧ t.control.phase ≠ .stuck ∧
    ∃ nodes live, Chain t.list.next t.list.head nodes 0 ∧ t.size = nodes.length ∧
      t.size = t.list.listSize ∧ Chain (L.next t.mem) L.head (L.head :: live) L.tail ∧
      t.size = live.length := by
  have hP := shipped_proper initialListSize totalNumOps readOnlyPercentage
  have hfit : ∀ i ≤ n, (SetTest.after (.shipped initialListSize totalNumOps readOnlyPercentage)
      rand i).keys.card ≤ L.numMemBlocks := by
    intro i _
    have hle := Finset.card_le_card (keys_subset hP rand i)
    rw [Nat.card_Ico] at hle
    rw [(numMemBlocks_shipped hsize).1 hbytes]
    exact le_trans hle (show 512 - 1 ≤ 512 by decide)
  obtain rfl := eq_of_main hmain
  obtain ⟨⟨live, free, hheap, hkeys⟩, ⟨nodes, hlist, hcontent⟩, hcard, -, hfine⟩ :=
    run_agrees A m data next hP hfuel hfit
  refine ⟨hfine.1, hfine.2, nodes, live, hlist.list, ?_, ?_, hheap.list, ?_⟩
  · rw [hcard, ← hcontent, hlist.card_content, hlist.size]
  · rw [hcard, ← hcontent, hlist.card_content]
  · rw [hcard, ← hkeys, hheap.card_keys]

def shippedLayout : Layout :=
  { twoBlocks with vregSize := 4096, vreg_end := by decide, apart := .inl (by decide) }

theorem test_never_disagrees_three :
    ∃ t, Test.main (.shipped 100 100 50) shippedLayout .above 600 (fun i => 3 * i) (fun _ => 0)
      (fun _ => 0) (fun _ => 0) 3 = some t ∧ t.control.phase ≠ .disagreed := by
  have hmain := main_eq_some (.shipped 100 100 50) shippedLayout .above 600 (fun i => 3 * i)
    (fun _ => 0) (fun _ => 0) (fun _ => 0) (by decide) (by decide) 3
  exact ⟨_, hmain, (test_never_disagrees shippedLayout rfl rfl .above 600 (by decide) _ _ _ _ 100 100
    50 3 _ hmain).1⟩

/-! ## More keys than blocks -/

lemma card_le_of_not_overfull (hP : P.Proper) (hfuel : L.numMemBlocks + 1 < fuel)
    (h : ∀ i < n, ¬ ((Test.step P L A fuel rand)^[i] (.begun L m data next)).SendsOverfull P L rand) :
    ∀ i ≤ n, (SetTest.after P rand i).keys.card ≤ L.numMemBlocks := by
  intro i
  induction i using Nat.strong_induction_on with
  | h i ih =>
    intro hi
    cases i with
    | zero => exact zero_le _
    | succ i =>
      by_contra hfull
      have hagrees : Agrees L ((Test.step P L A fuel rand)^[i] (.begun L m data next))
          (SetTest.after P rand i) :=
        run_agrees A m data next hP hfuel fun j hj => ih j (by omega) (by omega)
      rw [SetTest.after_succ, not_le] at hfull
      exact h i hi (hagrees.step_overfull (A := A) hP hfuel hfull).1

/-- With words of 8 bytes there are 256 blocks: a set with more keys than that is found out. -/
theorem never_sends_overfull_iff (L : Layout) (hbytes : L.arch.bytes = 8) (hsize : L.vregSize = 4096)
    (A : Allocator) (fuel : Nat) (hfuel : L.numMemBlocks + 1 < fuel) (rand : Nat → Nat) (m : Memory)
    (data next : Nat → Nat) (initialListSize totalNumOps readOnlyPercentage : Nat) (t : Nat → Test)
    (hmain : ∀ i, Test.main (.shipped initialListSize totalNumOps readOnlyPercentage) L A fuel rand m
      data next i = some (t i)) (n : Nat) :
    ((∀ i < n, ¬ (t i).SendsOverfull (.shipped initialListSize totalNumOps readOnlyPercentage) L rand) ∧
      ∀ i ≤ n, (t i).control.phase ≠ .disagreed) ↔
    ∀ i ≤ n, (SetTest.after (.shipped initialListSize totalNumOps readOnlyPercentage) rand
      i).keys.card ≤ 256 := by
  have hP := shipped_proper initialListSize totalNumOps readOnlyPercentage
  have ht := fun i => eq_of_main (hmain i)
  rw [← (numMemBlocks_shipped hsize).2 hbytes]
  constructor
  · rintro ⟨hsends, -⟩
    apply card_le_of_not_overfull hP hfuel
    intro i hi
    rw [← ht i]
    exact hsends i hi
  · intro hfit
    have hagrees : ∀ i ≤ n, Agrees L (t i) (SetTest.after
        (.shipped initialListSize totalNumOps readOnlyPercentage) rand i) := by
      intro i hi
      rw [ht i]
      exact run_agrees A m data next hP hfuel fun j hj => hfit j (le_trans hj hi)
    constructor
    · intro i hi
      apply (hagrees i (Nat.le_of_lt hi)).not_overfull
      rw [← SetTest.after_succ]
      exact hfit (i + 1) hi
    · exact fun i hi => (hagrees i hi).fine.1

def shippedLayout64 : Layout :=
  { shippedLayout with
    arch := .arm64
    vreg_end := by decide
    sreg_end := by decide
    apart := .inl (by decide) }

theorem never_sends_overfull_iff_begun :
    ∃ t : Nat → Test, (∀ i, Test.main (.shipped 100 100 50) shippedLayout64 .above 300 id (fun _ => 0)
        (fun _ => 0) (fun _ => 0) i = some (t i)) ∧
      ((∀ i < 0, ¬ (t i).SendsOverfull (.shipped 100 100 50) shippedLayout64 id) ∧
        ∀ i ≤ 0, (t i).control.phase ≠ .disagreed) := by
  have hmain := main_eq_some (.shipped 100 100 50) shippedLayout64 .above 300 id (fun _ => 0)
    (fun _ => 0) (fun _ => 0) (by decide) (by decide)
  refine ⟨_, hmain, (never_sends_overfull_iff shippedLayout64 rfl rfl .above 300 (by decide) id _ _ _
    100 100 50 _ hmain 0).mpr ?_⟩
  intro i hi
  obtain rfl := Nat.le_zero.mp hi
  exact Nat.zero_le _

lemma after_counting {total percentage i : Nat} (hi : i ≤ 257) :
    SetTest.after (.shipped 257 total percentage) id i = ⟨Finset.Icc 1 i, 0, i, .populate⟩ := by
  induction i with
  | zero => rfl
  | succ i ih =>
    have hkey : (Params.shipped 257 total percentage).keyValue (id i) = i + 1 :=
      congrArg (· + 1) (mod_eq_of_lt (show i < 512 - 1 by omega))
    have hlt : ((Finset.Icc 1 i).card : Int) <
        (Params.shipped 257 total percentage).initialListSize := by
      rw [card_Icc]
      exact Int.ofNat_lt.mpr (show i + 1 - 1 < 257 by omega)
    have hinsert : insert (i + 1) (Finset.Icc 1 i) = Finset.Icc 1 (i + 1) := by
      ext j
      rw [mem_insert, mem_Icc, mem_Icc]
      omega
    rw [SetTest.after_succ, ih (le_of_succ_le hi)]
    unfold SetTest.step Params.sends Params.advance
    dsimp only
    rw [if_pos hlt, if_pos hlt, hkey]
    dsimp only [after]
    rw [hinsert]

/-- The last of 257 keys is sent to a PIM that has no block for it. -/
theorem sends_overfull :
    ∃ t t', Test.main (.shipped 257 100 50) shippedLayout64 .above 300 id (fun _ => 0) (fun _ => 0)
        (fun _ => 0) 256 = some t ∧ t.SendsOverfull (.shipped 257 100 50) shippedLayout64 id ∧
      Test.main (.shipped 257 100 50) shippedLayout64 .above 300 id (fun _ => 0) (fun _ => 0)
        (fun _ => 0) 257 = some t' ∧ t'.control.phase = .disagreed := by
  have hmain := main_eq_some (.shipped 257 100 50) shippedLayout64 .above 300 id (fun _ => 0)
    (fun _ => 0) (fun _ => 0) (by decide) (by decide)
  have hP := shipped_proper 257 100 50
  have hcard : ∀ i ≤ 257, (SetTest.after (.shipped 257 100 50) id i).keys.card = i := by
    intro i hi
    rw [after_counting hi, Nat.card_Icc, Nat.add_sub_cancel]
  have hfuel : shippedLayout64.numMemBlocks + 1 < 300 := by decide
  have hfit : ∀ i ≤ 256, (SetTest.after (.shipped 257 100 50) id i).keys.card ≤
      shippedLayout64.numMemBlocks := by
    intro i hi
    rw [hcard i (by omega)]
    exact hi
  have hagrees := run_agrees .above (fun _ => 0) (fun _ => 0) (fun _ => 0) hP hfuel hfit
  have hfull : shippedLayout64.numMemBlocks <
      ((SetTest.after (.shipped 257 100 50) id 256).step (.shipped 257 100 50) id).keys.card := by
    rw [← SetTest.after_succ, hcard 257 (le_refl _)]
    decide
  obtain ⟨hsends, hphase⟩ := hagrees.step_overfull (A := .above) hP hfuel hfull
  refine ⟨_, _, hmain 256, hsends, hmain 257, ?_⟩
  rw [Function.iterate_succ_apply']
  exact hphase

end SmcPim.PimList
