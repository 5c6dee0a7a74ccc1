import SmcPim.Lib.Selection
import SmcPim.Timestamp.Model

/-! # What the verdict says -/

namespace SmcPim.Timestamp

open List Record

variable {ttop : ℕ} {comStp : Fin ttop → ℕ} {i : Fin ttop} {rs : List Record} {myList : List ℕ}

def Record.op (r : Record) : SetOp ℕ := r.command.getD (.contains r.val)

def Record.entry (r : Record) : Entry ℕ := ⟨r.op, r.res⟩

/-! ## Sorting -/

lemma foldl_least (js : List (Fin ttop)) (m : ℕ × Fin ttop) (hm : m.1 = comStp m.2) :
    let m' := js.foldl (fun m j => if comStp j < m.1 then (comStp j, j) else m) m
    m'.1 = comStp m'.2 ∧ (m'.2 = m.2 ∨ m'.2 ∈ js) ∧ m'.1 ≤ m.1 ∧ ∀ j ∈ js, m'.1 ≤ comStp j := by
  induction js generalizing m with
  | nil => simp [hm]
  | cons j js ih =>
    rw [foldl_cons]
    split_ifs with hlt
    · obtain ⟨hval, hmem, hle, hall⟩ := ih (comStp j, j) rfl
      refine ⟨hval, ?_, hle.trans hlt.le, forall_mem_cons.mpr ⟨hle, hall⟩⟩
      rcases hmem with hmem | hmem
      · exact .inr (hmem ▸ mem_cons_self)
      · exact .inr (mem_cons_of_mem j hmem)
    · obtain ⟨hval, hmem, hle, hall⟩ := ih m hm
      exact ⟨hval, hmem.imp_right (mem_cons_of_mem j), hle,
        forall_mem_cons.mpr ⟨hle.trans (not_lt.mp hlt), hall⟩⟩

lemma mem_drop_finRange {j : Fin ttop} : j ∈ (finRange ttop).drop (i + 1) ↔ i < j := by
  rw [mem_drop_iff_getElem]
  constructor
  · rintro ⟨k, hk, rfl⟩
    rw [Fin.lt_def]
    simp
    omega
  · intro hlt
    refine ⟨j - (i + 1), ?_, ?_⟩
    · simp
      omega
    · apply Fin.ext
      simp
      omega

lemma least_spec (comStp : Fin ttop → ℕ) (i : Fin ttop) : IsLeastFrom comStp i
    (least comStp i).2 := by
  obtain ⟨hval, hmem, hle, hall⟩ := foldl_least ((finRange ttop).drop (i + 1)) (comStp i, i) rfl
  refine ⟨?_, fun q hq => ?_⟩
  · rcases hmem with hmem | hmem
    · exact hmem.ge
    · exact (mem_drop_finRange.mp hmem).le
  · refine hval.symm.trans_le ?_
    rcases hq.lt_or_eq with hlt | rfl
    · exact hall q (mem_drop_finRange.mpr hlt)
    · exact hle

lemma exchange_eq {α : Type} (com : Fin ttop → α) (i j : Fin ttop) :
    exchange com i j = com ∘ Equiv.swap i j := by
  rw [Equiv.swap_comm, Equiv.comp_swap_eq_update]
  rfl

def pick (f : Fin ttop → Record) (i : Fin ttop) : Fin ttop := (least (Record.stp ∘ f) i).2

lemma record_sortStep (a : Arrays ttop) (i : Fin ttop) :
    (sortStep a i).record = a.record ∘ Equiv.swap i (pick a.record i) := by
  funext p
  simp only [sortStep, Arrays.record, exchange_eq]
  rfl

lemma record_sort (a : Arrays ttop) : (sort a).record = select pick a.record (finRange ttop) :=
  (foldl_hom Arrays.record fun a i => (record_sortStep a i).symm).symm

lemma sort_perm (a : Arrays ttop) : (ofFn (sort a).record).Perm (ofFn a.record) := by
  rw [record_sort]
  exact select_perm pick a.record _

lemma sort_sorted (a : Arrays ttop) : (ofFn (sort a).record).Pairwise fun r r' => r.stp ≤ r'.stp := by
  rw [pairwise_ofFn, record_sort]
  intro p q hpq
  exact select_sorted stp pick (fun f i => least_spec _ i) a.record hpq.le

/-! ## Checking -/

def Record.Valid (r : Record) : Prop := r.typ = 'a' ∨ r.typ = 'c' ∨ r.typ = 'r'

lemma Record.Valid.command_eq {r : Record} (h : r.Valid) : r.command = some r.op := by
  unfold op command
  rcases h with h | h | h <;> simp [h]

lemma Record.op_key (r : Record) : r.op.key = r.val := by
  unfold op command
  split_ifs <;> rfl

lemma check_passed_iff (hrs : ∀ r ∈ rs, r.Valid) (ii : ℕ) :
    check ii rs myList = .passed ↔ Checker.replay myList (rs.map op) = rs.map res := by
  induction rs generalizing ii myList with
  | nil => simp [check, Checker.replay]
  | cons r rs ih =>
    rw [forall_mem_cons] at hrs
    rw [check, hrs.1.command_eq, map_cons, map_cons, Checker.replay, cons_eq_cons]
    dsimp only
    split_ifs with hres
    · simp [Ne.symm hres]
    · rw [ih hrs.2]
      simp [not_not.mp hres]

lemma check_passed_iff_answered {S : Finset ℕ} (hrs : ∀ r ∈ rs, r.Valid)
    (hlists : Checker.Lists S myList)
    (hkeys : ∀ r ∈ rs, r.val ≠ 0) (ii : ℕ) : check ii rs myList = .passed ↔ Answered S (rs.map Record.entry) := by
  have hops : ∀ op ∈ rs.map Record.op, op.key ≠ 0 := by
    intro op hop
    obtain ⟨r, hr, rfl⟩ := mem_map.mp hop
    rw [op_key]
    exact hkeys r hr
  rw [check_passed_iff hrs, Checker.replay_eq hlists hops, Answered, map_map, map_map]
  rfl

/-- The records are sorted as wholes, and pass exactly if replaying them gives their results. -/
theorem verdict_passed_iff (a : Arrays ttop) (myList : List ℕ) (ha : ∀ i, (a.record i).Valid) :
    let sorted := List.ofFn (sort a).record
    sorted.Perm (List.ofFn a.record) ∧ sorted.Pairwise (fun r r' => r.stp ≤ r'.stp) ∧
      (verdict a myList = .passed ↔ Checker.replay myList (sorted.map Record.op) = sorted.map Record.res) ∧
      ∀ S, Checker.Lists S myList → (∀ i, a.comVal i ≠ 0) →
        (verdict a myList = .passed ↔ Answered S (sorted.map Record.entry)) := by
  have hvalid : ∀ r ∈ List.ofFn (sort a).record, r.Valid := by
    intro r hr
    obtain ⟨i, rfl⟩ := List.mem_ofFn.mp ((sort_perm a).mem_iff.mp hr)
    exact ha i
  refine ⟨sort_perm a, sort_sorted a, check_passed_iff hvalid 0, fun S hS hkeys => ?_⟩
  refine check_passed_iff_answered hvalid hS (fun r hr => ?_) 0
  obtain ⟨i, rfl⟩ := List.mem_ofFn.mp ((sort_perm a).mem_iff.mp hr)
  exact hkeys i

def twoRecords : Arrays 2 := ⟨!['a', 'r'], ![5, 5], ![true, true], ![2, 1]⟩

theorem verdict_passed_iff_twoRecords :
    verdict twoRecords [5] = .passed ∧
      Answered {5} ((List.ofFn (sort twoRecords).record).map Record.entry) := by
  have hvalid : ∀ i, (twoRecords.record i).Valid := by
    intro i
    fin_cases i <;> simp [Record.Valid, Arrays.record, twoRecords]
  have h := (verdict_passed_iff twoRecords [5] hvalid).2.2.2 {5} ⟨List.pairwise_singleton _ _, by simp⟩ (by decide)
  have hpassed : verdict twoRecords [5] = .passed := by decide
  exact ⟨hpassed, h.mp hpassed⟩

end SmcPim.Timestamp
