import SmcPim.Generator.Solo

/-! # The list of the checker and the lists under test -/

namespace SmcPim.Checker

open FineList (Ends Heap NewNode Quiet keys)

structure Call (α β : Type) where
  op : SetOp ℕ
  coarse : NewNode α
  fine : NewNode β

def Holds {α τ : Type} (E : Ends α) (h : Heap α ℕ τ) (l : List ℕ) : Prop :=
  ∃ nodes, Chain h.next E.head (E.head :: nodes) E.tail ∧ E.tail ∉ nodes ∧ nodes.map h.data = l

variable {α β τ : Type} [DecidableEq α] [DecidableEq β]

def Agree (Ec : Ends α) (Ef : Ends β) (who : Option τ) (t : τ) :
    List ℕ → Heap α ℕ (Option τ) → Heap β ℕ τ → List (Call α β) → Prop
  | _, _, _, [] => True
  | l, hc, hf, c :: calls =>
    let (r, l') := exec l c.op
    ∃ hc' hf', Generator.Returns Ec who c.coarse c.op hc hc' r ∧ FineList.Returns Ef t c.fine c.op hf hf' r ∧
      Holds Ec hc' l' ∧ Holds Ef hf' l' ∧ Agree Ec Ef who t l' hc' hf' calls

/-! ## The three lists stand for one set -/

variable {Ec : Ends α} {Ef : Ends β} {who : Option τ} {t : τ} {S : Finset ℕ} {l : List ℕ} {op : SetOp ℕ}
  {hc : Heap α ℕ (Option τ)} {hf : Heap β ℕ τ} {calls : List (Call α β)}

def Represents {α τ : Type} (E : Ends α) (h : Heap α ℕ τ) (S : Finset ℕ) : Prop :=
  ∃ nodes, Quiet E h nodes ∧ keys h nodes = S

lemma Represents.holds {α τ : Type} {E : Ends α} {h : Heap α ℕ τ} (hr : Represents E h S)
    (hl : Lists S l) : Holds E h l := by
  obtain ⟨nodes, hq, rfl⟩ := hr
  refine ⟨nodes, hq.list, hq.tail, ?_⟩
  refine List.Pairwise.eq_of_mem_iff (r := (· < ·)) (List.pairwise_map.mpr hq.sorted) hl.sorted fun x => ?_
  rw [hl.mem, keys, List.mem_toFinset]

lemma exec_of_ne (hl : Lists S l) (h0 : 0 ∉ S) (hop : op ≠ .add 0) :
    (exec l op).1 = op.answer S ∧ Lists (op.after S) (exec l op).2 := by
  by_cases hkey : op.key = 0
  · cases op with
    | contains x => exact ⟨contains_eq hl, hl⟩
    | add x => exact absurd (congrArg SetOp.add hkey) hop
    | remove x =>
      obtain rfl : x = 0 := hkey
      refine ⟨(decide_eq_false h0).symm, ?_⟩
      rw [SetOp.after, Finset.erase_eq_of_notMem h0]
      exact hl
  · exact exec_spec hl hkey

structure Same (Ec : Ends α) (Ef : Ends β) (S : Finset ℕ) (l : List ℕ) (hc : Heap α ℕ (Option τ))
    (hf : Heap β ℕ τ) : Prop where
  lists : Lists S l
  zero : 0 ∉ S
  coarse : Represents Ec hc S
  fine : Represents Ef hf S

section
variable (h : Same Ec Ef S l hc hf)
include h

lemma Same.returns (who : Option τ) (t : τ) (A : NewNode α) (B : NewNode β) (op : SetOp ℕ) :
    ∃ hc' hf', Generator.Returns Ec who A op hc hc' (op.answer S) ∧ FineList.Returns Ef t B op hf hf' (op.answer S) ∧
      Represents Ec hc' (op.after S) ∧ Represents Ef hf' (op.after S) := by
  obtain ⟨nodes, hq, hS⟩ := h.coarse
  obtain ⟨nodes', hq', hS'⟩ := h.fine
  obtain ⟨hc', ns, hret, hquiet, hkeys⟩ := Generator.returns hq who A op
  obtain ⟨hf', ns', hret', hquiet', hkeys'⟩ := hq'.returns t B op
  rw [hS] at hret hkeys
  rw [hS'] at hret' hkeys'
  exact ⟨hc', hf', hret, hret', ⟨ns, hquiet, hkeys⟩, ⟨ns', hquiet', hkeys'⟩⟩

lemma Same.step (who : Option τ) (t : τ) (A : NewNode α) (B : NewNode β) (hop : op ≠ .add 0) :
    ∃ hc' hf', Generator.Returns Ec who A op hc hc' (exec l op).1 ∧ FineList.Returns Ef t B op hf hf' (exec l op).1 ∧
      Same Ec Ef (op.after S) (exec l op).2 hc' hf' := by
  obtain ⟨hr, hl⟩ := exec_of_ne h.lists h.zero hop
  obtain ⟨hc', hf', hret, hret', hcoarse, hfine⟩ := h.returns who t A B op
  rw [hr]
  refine ⟨hc', hf', hret, hret', hl, ?_, hcoarse, hfine⟩
  intro h0
  cases op with
  | contains x => exact h.zero h0
  | add x =>
    rcases Finset.mem_insert.mp h0 with rfl | h0
    · exact hop rfl
    · exact h.zero h0
  | remove x => exact h.zero (Finset.mem_of_mem_erase h0)

lemma Same.not_agree {c : Call α β} (hop : c.op = .add 0) :
    ¬Agree Ec Ef who t l hc hf (c :: calls) := by
  rintro ⟨hc1, hf1, hret1, -⟩
  rw [hop] at hret1
  obtain ⟨hc', hf', hret, -⟩ := h.returns who t c.coarse c.fine (.add 0)
  obtain ⟨-, hpc⟩ := Prod.mk.inj (hret1.unique hret)
  obtain ⟨-, hanswer⟩ := Generator.Pc.report.inj hpc
  rw [show (SetOp.add 0).answer S = true from decide_eq_true h.zero] at hanswer
  exact absurd hanswer Bool.false_ne_true

lemma Same.agree_cons (who : Option τ) (t : τ) {c : Call α β} (hop : c.op ≠ .add 0)
    (calls : List (Call α β)) :
    ∃ hc' hf', Same Ec Ef (c.op.after S) (exec l c.op).2 hc' hf' ∧
      (Agree Ec Ef who t l hc hf (c :: calls) ↔ Agree Ec Ef who t (exec l c.op).2 hc' hf' calls) := by
  obtain ⟨hc', hf', hret, hret', hsame⟩ := h.step who t c.coarse c.fine hop
  refine ⟨hc', hf', hsame, ?_, ?_⟩
  · rintro ⟨hc1, hf1, hret1, hret1', -, -, hagree⟩
    obtain ⟨rfl, -⟩ := Prod.mk.inj (hret1.unique hret)
    obtain ⟨rfl, -⟩ := Prod.mk.inj (hret1'.unique hret')
    exact hagree
  · intro hagree
    exact ⟨hc', hf', hret, hret', hsame.coarse.holds hsame.lists, hsame.fine.holds hsame.lists, hagree⟩

lemma Same.agree_iff : Agree Ec Ef who t l hc hf calls ↔ ∀ c ∈ calls, c.op ≠ .add 0 := by
  induction calls generalizing S l hc hf with
  | nil => exact ⟨fun _ => List.forall_mem_nil _, fun _ => trivial⟩
  | cons c calls ih =>
    rw [List.forall_mem_cons]
    by_cases hop : c.op = .add 0
    · exact ⟨fun hagree => absurd hagree (h.not_agree hop), fun hall => absurd hop hall.1⟩
    · obtain ⟨hc', hf', hsame, hiff⟩ := h.agree_cons who t hop calls
      rw [hiff, ih hsame, and_iff_right hop]

end

/-! ## New lists -/

lemma init_same (Ec : Ends α) (Ef : Ends β) (data : α → ℕ) (next : α → α) (data' : β → ℕ)
    (next' : β → β) :
    Same Ec Ef ∅ [] (Generator.init Ec data next : Generator.State α τ).heap
      (FineList.init Ef data' next' : FineList.State β ℕ τ).heap where
  lists := lists_nil
  zero := Finset.notMem_empty 0
  coarse := ⟨[], ⟨(FineList.init_inv (τ := Option τ) Ec data next).linked, fun _ => rfl⟩, rfl⟩
  fine := ⟨[], ⟨(FineList.init_inv Ef data' next').linked, fun _ => rfl⟩, rfl⟩

/-- Operations of one thread have the same results in the three lists exactly if none adds the key
0. -/
theorem lists_agree_iff (Ec : Ends α) (Ef : Ends β) (who : Option τ) (t : τ) (data : α → ℕ)
    (next : α → α)
    (data' : β → ℕ) (next' : β → β) (calls : List (Call α β)) :
    Agree Ec Ef who t [] (Generator.init Ec data next : Generator.State α τ).heap
        (FineList.init Ef data' next' : FineList.State β ℕ τ).heap calls ↔
      ∀ c ∈ calls, c.op ≠ .add 0 :=
  (init_same Ec Ef data next data' next').agree_iff

def above : NewNode ℕ where
  new live := live.sup id + 1
  fresh _ hmem := absurd (Finset.le_sup (f := id) hmem) (Nat.not_succ_le_self _)

theorem add_zero_disagrees :
    ¬Agree FineList.zeroOne FineList.zeroOne none 0 []
      (Generator.init FineList.zeroOne (fun _ => 0) id : Generator.State ℕ ℕ).heap
      (FineList.init FineList.zeroOne (fun _ => 0) id : FineList.State ℕ ℕ ℕ).heap [⟨.add 0, above, above⟩] :=
  (init_same _ _ _ _ _ _).not_agree rfl

end SmcPim.Checker
