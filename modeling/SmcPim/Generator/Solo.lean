import SmcPim.FineList.Solo
import SmcPim.Generator.Logs

/-!
# One thread alone in the list with one lock
-/

namespace SmcPim.Generator

open Function FineList

open FineList (Ends Heap NewNode Linked Reached Gap Found Quiet locks)

def Pc.isBusy {α : Type} : Pc α → Bool
  | .busy _ _ => true
  | _ => false

section
variable {α τ : Type} [DecidableEq α] (E : Ends α) (who : Option τ) (A : NewNode α)

def soloStep (s : Heap α ℕ (Option τ) × Pc α) : Heap α ℕ (Option τ) × Pc α :=
  match s.2 with
  | .busy op loc => (listStep E s.1 who (A.new s.1.live) op loc).getD s
  | _ => s

def Comes : Heap α ℕ (Option τ) × Pc α → Heap α ℕ (Option τ) × Pc α → Prop :=
  Leads (fun s => s.2.isBusy) (soloStep E who A)

def Returns (op : SetOp ℕ) (h h' : Heap α ℕ (Option τ)) (r : Bool) : Prop :=
  Comes E who A (h, .busy op .lock) (h', .report op r)

end

variable {α τ : Type} [DecidableEq α] {E : Ends α} {who : Option τ} {A : NewNode α} {op : SetOp ℕ}
  {h h' : Heap α ℕ (Option τ)} {nodes : List α} {loc : Loc α} {pred curr : α} {x : ℕ} {r : Bool}
  {s u : Heap α ℕ (Option τ) × Pc α}

def locked (E : Ends α) (who : Option τ) (h : Heap α ℕ (Option τ)) : Heap α ℕ (Option τ) := h.locked who {E.head}

/-! ## The steps -/

namespace Comes

lemma step (hstep : listStep E h who (A.new h.live) op loc = some s) (hu : Comes E who A s u) :
    Comes E who A (h, .busy op loc) u := by
  refine Leads.turn rfl ?_
  have hsolo : soloStep E who A (h, .busy op loc) = s := by
    rw [← Option.getD_some (a := s) (b := (h, .busy op loc)), ← hstep]
    rfl
  rwa [hsolo]

lemma lock (hq : Quiet E h nodes) (hu : Comes E who A (locked E who h, .busy op .first) u) :
    Comes E who A (h, .busy op .lock) u := by
  refine step ?_ hu
  have hlocks : update h.lock E.head (some who) = locks who {E.head} := by
    rw [funext hq.free]
    exact update_locks_some (S := ∅)
  rw [listStep, if_pos (hq.free E.head), hlocks]
  rfl

lemma create (hu : Comes E who A (locked E who { h with
        data := update h.data (A.new h.live) op.key
        live := insert (A.new h.live) h.live },
      .busy op (.setNext pred curr (A.new h.live))) u) :
    Comes E who A (locked E who h, .busy op (.create pred curr)) u :=
  step (if_neg (A.fresh h.live)) hu

lemma write {p q : α} {loc' : Loc α}
    (hstep : listStep E (locked E who h) who (A.new h.live) op loc =
      some ({ locked E who h with next := update h.next p q }, .busy op loc'))
    (hu : Comes E who A (locked E who { h with next := update h.next p q }, .busy op loc') u) :
    Comes E who A (locked E who h, .busy op loc) u :=
  step hstep hu

lemma delete
    (hu : Comes E who A (locked E who { h with live := h.live.erase curr }, .busy op (.unlock true)) u) :
    Comes E who A (locked E who h, .busy op (.delete curr)) u :=
  step rfl hu

lemma unlock : Comes E who A (locked E who h, .busy op (.unlock r))
    (h.locked who ∅, .report op r) := by
  refine step rfl ?_
  have hlocks : update (locks who {E.head}) E.head none = locks who ∅ := by
    rw [update_locks_none, Finset.erase_singleton]
  rw [show (locked E who h).lock = locks who {E.head} from rfl, hlocks]
  exact Leads.stop rfl

end Comes

/-! ## The searches -/

def Finishes (E : Ends α) (who : Option τ) (A : NewNode α) (op : SetOp ℕ) (h : Heap α ℕ (Option τ)) (nodes : List α)
    (loc : Loc α) : Prop :=
  ∃ h' nodes', Comes E who A (locked E who h, .busy op loc) (h', .report op (op.answer (FineList.keys h nodes))) ∧
    Quiet E h' nodes' ∧ FineList.keys h' nodes' = op.after (FineList.keys h nodes)

lemma finishes_unlock (hl : Linked E h nodes) (hafter : op.after (keys h nodes) = keys h nodes) :
    Finishes E who A op h nodes (.unlock (op.answer (keys h nodes))) :=
  ⟨h.locked who ∅, nodes, .unlock, hl.quiet who, hafter.symm⟩

lemma finishes_create (hl : Linked E h nodes) (hgap : Gap E h nodes x pred curr)
    (hnot : x ∉ keys h nodes) : Finishes E who A (.add x) h nodes (.create pred curr) := by
  obtain ⟨hl1, hkeys, hgap1, hpriv⟩ := hl.new hgap (A.fresh h.live) h.lock
  obtain ⟨hl2, hgap2⟩ := hl1.setNext hgap1 hpriv
  obtain ⟨us, ys, rfl, -, -, hl3⟩ :=
    hl2.link hgap2 hpriv (update_self ..) (update_self ..)
  refine ⟨_, _, ?_, hl3.quiet who, ?_⟩
  · rw [show (SetOp.add x).answer (keys h (us ++ ys)) = true from decide_eq_true hnot]
    exact .create (.write rfl (.write rfl .unlock))
  · refine (keys_insert (update_self ..)).trans ?_
    exact congrArg (insert x) hkeys

lemma finishes_readNext (hl : Linked E h nodes) (hf : Found E h nodes x pred curr) :
    Finishes E who A (.remove x) h nodes (.readNext pred curr) := by
  have hin := mem_keys hf.2.2.1 hf.2.2.2
  obtain ⟨us, ys, rfl, hl1⟩ := hl.unlink hf
  obtain ⟨hkeys, hpriv⟩ := hl.taken hf.2.2.2
  refine ⟨_, _, ?_, (hl1.delete hpriv).quiet who, hkeys⟩
  rw [show (SetOp.remove x).answer (keys h (us ++ curr :: ys)) = true from decide_eq_true hin]
  exact .step rfl (.write rfl (.delete .unlock))

lemma finishes_test (hl : Linked E h nodes) (hr : Reached E h nodes op.key pred)
    (hon : h.next pred ≠ E.tail → h.data (h.next pred) < op.key →
      Finishes E who A op h nodes (.test (h.next pred) (h.next (h.next pred)))) :
    Finishes E who A op h nodes (.test pred (h.next pred)) := by
  have hc := hl.next_mem hr.1
  have hbranch : Finishes E who A op h nodes (branch E h pred (h.next pred) op) := by
    rcases compare_spec hc (hl.past hr) with ⟨hend, hnot⟩ | ⟨⟨htail, hlt, hmem⟩, heq | ⟨hne, hr'⟩⟩
    · rw [branch_end hend]
      cases op with
      | contains x =>
        rw [← show (SetOp.contains x).answer (keys h nodes) = false from decide_eq_false hnot]
        exact finishes_unlock hl rfl
      | add x => exact finishes_create hl ⟨hr, rfl, hend⟩ hnot
      | remove x =>
        rw [← show (SetOp.remove x).answer (keys h nodes) = false from decide_eq_false hnot]
        exact finishes_unlock hl (Finset.erase_eq_of_notMem hnot)
    · have hin := mem_keys hmem heq
      rw [branch_found htail heq]
      cases op with
      | contains x =>
        rw [← show (SetOp.contains x).answer (keys h nodes) = true from decide_eq_true hin]
        exact finishes_unlock hl rfl
      | add x =>
        rw [← show (SetOp.add x).answer (keys h nodes) = false from decide_eq_false (not_not.mpr hin)]
        exact finishes_unlock hl (Finset.insert_eq_of_mem hin)
      | remove x => exact finishes_readNext hl ⟨hr.1, rfl, hmem, heq⟩
    · rw [branch_advance htail hlt hne]
      obtain ⟨h', nodes', hcomes, hrest⟩ := hon htail (lt_of_le_of_ne (not_lt.mp hlt) hne)
      exact ⟨h', nodes', .step rfl hcomes, hrest⟩
  obtain ⟨h', nodes', hcomes, hrest⟩ := hbranch
  refine ⟨h', nodes', .step ?_ hcomes, hrest⟩
  cases op <;> rfl

lemma returns (hq : Quiet E h nodes) (who : Option τ) (A : NewNode α) (op : SetOp ℕ) :
    ∃ h' nodes', Returns E who A op h h' (op.answer (keys h nodes)) ∧ Quiet E h' nodes' ∧
      keys h' nodes' = op.after (keys h nodes) := by
  obtain ⟨h', nodes', hcomes, hrest⟩ : Finishes E who A op h nodes (.test E.head (h.next E.head)) :=
    hq.walk (x := op.key) (fun p => Finishes E who A op h nodes (.test p (h.next p)))
      fun p hr hon => finishes_test hq.toLinked hr hon
  exact ⟨h', nodes', .lock hq (.step rfl hcomes), hrest⟩

end SmcPim.Generator
