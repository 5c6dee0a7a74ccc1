import SmcPim.FcQueue.Combine

/-! # How requests are served -/

namespace SmcPim.FcQueue

open List Function State

open FlatCombining (Malloc)

variable {τ α ρ : Type} [DecidableEq τ] [DecidableEq α] {M : Malloc α} {s : State τ α ρ} {slots : List τ}
  {nodes : List α} {a : Atomic τ (Log ρ) (Op ρ) (Ans ρ)} {t c : τ} {op : Op ρ} {p : Pass τ α ρ} {n : Name τ}

def takes (s : State τ α ρ) : Pass τ α ρ → Option (Label τ (Op ρ) (Ans ρ) Unit)
  | .enqLink (.own c) _ => some (.step c ())
  | .deqTail (.own c) => some (.step c ())
  | .deqTest (.own c) => if s.next s.tail = none then some (.step c ()) else none
  | _ => none

def Advances (M : Malloc α) (s : State τ α ρ) (slots : List τ) (a : Atomic τ (Log ρ) (Op ρ) (Ans ρ)) (t : τ)
    (op : Op ρ) (p : Pass τ α ρ) : Prop :=
  ∃ s' nodes' b, passStep M s t op p = some s' ∧ Inv s' slots (some t) nodes' b ∧
    Runs.Steps (Atomic.Step (fifo ρ)) a (takes s p).toList b

lemma Advances.quiet {s' : State τ α ρ} (hstep : passStep M s t op p = some s')
    (h : Inv s' slots (some t) nodes a) (htakes : takes s p = none) : Advances M s slots a t op p := by
  refine ⟨s', nodes, a, hstep, h, ?_⟩
  rw [htakes]
  exact .nil a

lemma Inv.moveOn (h : Inv s slots (some t) nodes a) (p' : Pass τ α ρ) (hpc : s.pc t = .pass op p)
    (hstep : passStep M s t op p = some (s.goto t (.pass op p'))) (hexecuted : p'.executed = p.executed)
    (hlinking : p'.linking = p.linking) (hoffset : p'.offset = p.offset) (htakes : takes s p = none)
    (hpass : PassAt (s.goto t (.pass op p')) slots nodes a t p') : Advances M s slots a t op p := by
  refine .quiet hstep (h.quiet hpc (.goto p' ⟨rfl, rfl, rfl, rfl⟩ fun _ => rfl) rfl hexecuted hpass ?_) htakes
  exact (h.passed hpc).2.2.keep ⟨rfl, rfl, rfl, rfl, rfl⟩ rfl hlinking hoffset

/-! ## The walk over the slots -/

section
variable (h : Inv s slots (some t) nodes a)
include h

lemma Inv.getTail (hpc : s.pc t = .pass op .getTail) : Advances M s slots a t op .getTail := by
  have hown := h.own t
  rw [hpc] at hown
  exact h.moveOn _ hpc rfl rfl rfl rfl rfl ⟨slots, ⟨⟨[], rfl⟩, fun _ => hown.1⟩, nameOf_eq h.chain⟩

lemma Inv.visit (hpc : s.pc t = .pass op (.visit n)) : Advances M s slots a t op (.visit n) := by
  obtain ⟨-, ⟨ys, hleft, hn⟩, -⟩ := h.passed hpc
  cases ys with
  | nil =>
    have hreq : (s.slot (.own t)).reqAns = nullValue := not_ne_iff.mp fun hne => by simpa using hleft.2 hne
    refine .quiet ?_ (h.finish hpc hreq) rfl
    simp only [passStep]
    rw [hn, show nameOf ([] : List τ) = .first from rfl, h.ends]
    rfl
  | cons c ys =>
    obtain ⟨xs, hxs⟩ := hleft.1
    subst hn
    refine h.moveOn (.readReq (.own c)) hpc ?_ rfl rfl rfl rfl ⟨c, ys, hleft, rfl⟩
    simp only [passStep]
    rw [ show nameOf (c :: ys) = .own c from rfl, if_pos (h.linked c (by simp [hxs]))]

lemma Inv.readReq (hpc : s.pc t = .pass op (.readReq n)) :
    Advances M s slots a t op (.readReq n) := by
  obtain ⟨-, ⟨c, ys, hleft, rfl⟩, -⟩ := h.passed hpc
  obtain ⟨xs, hxs⟩ := hleft.1
  have hfound := h.found hpc rfl (c := c) (by simp [hxs])
  by_cases hnull : (s.slot (.own c)).reqAns = nullValue
  · refine h.moveOn (.advance (.own c)) hpc ?_ rfl rfl rfl rfl ⟨c, xs, ys, rfl, hxs, fun hne => ?_⟩
    · simp only [passStep]
      rw [hnull, if_neg (lt_irrefl _), if_neg deqValue_lt.ne']
    · refine (mem_cons.mp (hleft.2 hne)).resolve_left ?_
      rintro rfl
      exact hne hnull
  · obtain ⟨op', hreq, hstatus, hnode⟩ := hfound hnull
    have hserving : Serving s slots t (.own c) c op' := ⟨rfl, ⟨ys, hleft⟩, hreq⟩
    cases op' with
    | add r =>
      refine h.moveOn (.enqLength (.own c)) hpc ?_ rfl rfl rfl rfl
        ⟨r, ⟨c, hserving.congr fun _ => rfl, hstatus⟩, hnode r rfl⟩
      simp only [passStep]
      rw [hreq, if_pos (show nullValue < (Op.add r).request from one_pos)]
    | remove =>
      refine h.moveOn (.deqTest (.own c)) hpc ?_ rfl rfl rfl rfl ⟨c, hserving.congr fun _ => rfl, hstatus⟩
      simp only [passStep]
      rw [hreq, Op.request_remove, if_neg deqValue_lt.not_gt, if_pos rfl]

lemma Inv.advance (hpc : s.pc t = .pass op (.advance n)) :
    Advances M s slots a t op (.advance n) := by
  obtain ⟨-, ⟨c, xs, ys, rfl, hslots, hown⟩, -⟩ := h.passed hpc
  have hchain := h.chain
  rw [hslots, map_append, map_cons] at hchain
  have hname := nameOf_eq hchain.after
  obtain ⟨m, hm⟩ := Option.ne_none_iff_exists'.mp (h.linked c (by simp [hslots]))
  rw [hm, Option.getD_some] at hname
  refine h.moveOn (.visit m) hpc ?_ rfl rfl rfl rfl ⟨ys, ⟨⟨xs ++ [c], by simp [hslots]⟩, hown⟩, hname⟩
  simp only [passStep]
  rw [hm]
  rfl

end

/-! ## An enqueue -/

lemma Inv.enqLength (h : Inv s slots (some t) nodes a) (hpc : s.pc t = .pass op (.enqLength n)) :
    Advances M s slots a t op (.enqLength n) := by
  obtain ⟨-, ⟨r, hw, hr⟩, hq⟩ := h.passed hpc
  refine .quiet rfl (h.quiet hpc (.goto (.enqRead n) ⟨rfl, rfl, rfl, rfl⟩ fun _ => rfl) rfl rfl
    ⟨r, hw.congr fun _ => rfl, hr⟩ ?_) rfl
  exact hq.count 1 ⟨rfl, rfl, rfl, rfl, rfl⟩ rfl rfl rfl

lemma Inv.enqRead (h : Inv s slots (some t) nodes a) (hpc : s.pc t = .pass op (.enqRead n)) :
    Advances M s slots a t op (.enqRead n) := by
  obtain ⟨-, ⟨r, hw, hr⟩, -⟩ := h.passed hpc
  exact h.moveOn _ hpc rfl rfl rfl rfl rfl ⟨r, hw.congr fun _ => rfl, hr⟩

omit [DecidableEq τ] in
lemma Posted.take {x : Slot τ ρ} {ex ex' : Prop} {status status' : Status (Op ρ) (Ans ρ)}
    (h : Posted x ex status op) (hreq : x.reqAns ≠ nullValue) (hex : ex') : Posted x ex' status' op :=
  ⟨h.values, (absurd · hreq), fun _ hne => absurd hex hne, h.node⟩

lemma Inv.enqLink {v : Option ρ} (h : Inv s slots (some t) nodes a)
    (hpc : s.pc t = .pass op (.enqLink n v)) : Advances M s slots a t op (.enqLink n v) := by
  obtain ⟨-, ⟨r, ⟨c, hserving, hstatus⟩, rfl⟩, hq⟩ := h.passed hpc
  obtain rfl := hserving.name
  have hreq := hserving.unanswered
  refine ⟨_, nodes ++ [M.new s.used], _, if_pos (hq.used _ hq.head_mem), ?_, .single (.take hstatus)⟩
  refine h.serve hpc (.goto (.enqHead (.own c)) ⟨rfl, rfl, rfl, rfl⟩ fun _ => rfl) hserving (fun _ _ => rfl)
    (fun u hu => update_of_ne hu ..) nofun (fun _ h => (Option.some.inj h).symm) (fun o ho => ho.take hreq rfl)
    ⟨c, .add r, hserving.congr fun _ => rfl, update_self ..⟩ (hq.append (M.fresh _) ⟨rfl, rfl, rfl⟩ rfl rfl rfl)

lemma Inv.enqHead (h : Inv s slots (some t) nodes a) (hpc : s.pc t = .pass op (.enqHead n)) :
    Advances M s slots a t op (.enqHead n) := by
  obtain ⟨-, ha, hq⟩ := h.passed hpc
  obtain ⟨y, hy, hq'⟩ := hq.moveHead
  have hstep : passStep M s t op (.enqHead n) =
      some (State.goto { s with head := y } t (.pass op (.answer n))) := by
    simp only [passStep]
    rw [hy]
    rfl
  exact .quiet hstep (h.quiet hpc (.goto (.answer n) ⟨rfl, rfl, rfl, rfl⟩ fun _ => rfl) rfl rfl (ha.congr rfl)
    (hq' _ ⟨rfl, rfl, rfl, rfl, rfl⟩ rfl)) rfl

/-! ## A dequeue -/

section
variable (h : Inv s slots (some t) nodes a)
include h

lemma Inv.deqTest (hpc : s.pc t = .pass op (.deqTest n)) :
    Advances M s slots a t op (.deqTest n) := by
  obtain ⟨-, ⟨c, hserving, hstatus⟩, hq⟩ := h.passed hpc
  obtain rfl := hserving.name
  have htail : s.tail ∈ s.used := hq.used _ mem_cons_self
  have hnext := hq.next_tail
  cases nodes with
  | nil =>
    have hreq := hserving.unanswered
    have hnil : a.state.queued = [] := eq_nil_of_length_eq_zero hq.length_eq.symm
    have hafter : (fifo ρ).after a.state .remove = a.state := if_neg (Log.queued_nil hnil)
    have hanswer : (fifo ρ).answer a.state .remove = .removed none := by
      change Ans.removed _ = _
      rw [Log.head_queued, hnil]
      rfl
    have hstep : passStep M s t op (.deqTest (.own c)) = some (s.goto t (.pass op (.deqEmpty (.own c)))) := by
      simp only [passStep]
      rw [if_pos htail, hnext]
      rfl
    have htakes : takes s (.deqTest (.own c)) = some (.step c ()) := if_pos hnext
    have htake := Atomic.Step.take (O := fifo ρ) hstatus
    rw [hafter, hanswer] at htake
    refine ⟨_, [], _, hstep, ?_, by rw [htakes]; exact .single htake⟩
    refine h.serve hpc (.goto _ ⟨rfl, rfl, rfl, rfl⟩ fun _ => rfl) hserving (fun _ _ => rfl)
      (fun u hu => update_of_ne hu ..) nofun (fun _ h => (Option.some.inj h).symm) (fun o ho => ho.take hreq rfl)
      ⟨c, hserving.congr fun _ => rfl, update_self ..⟩ (hq.keep ⟨rfl, rfl, rfl, rfl, rfl⟩ rfl rfl rfl)
  | cons y ys =>
    refine h.moveOn (.deqLength (.own c)) hpc ?_ rfl rfl rfl ?_
      ⟨⟨c, hserving.congr fun _ => rfl, hstatus⟩, by simp⟩
    · simp only [passStep]
      rw [if_pos htail, hnext]
      rfl
    · simp only [takes]
      rw [hnext]
      rfl

lemma Inv.deqLength (hpc : s.pc t = .pass op (.deqLength n)) :
    Advances M s slots a t op (.deqLength n) := by
  obtain ⟨-, ⟨hw, hnodes⟩, hq⟩ := h.passed hpc
  refine .quiet rfl (h.quiet hpc (.goto (.deqNode n) ⟨rfl, rfl, rfl, rfl⟩ fun _ => rfl) rfl rfl
    ⟨hw.congr fun _ => rfl, hnodes⟩ ?_) rfl
  have hone : -(1 : BitVec 32) = BitVec.ofInt 32 (-1) := by decide
  exact hq.count (-1) ⟨rfl, rfl, rfl, rfl, rfl⟩ (by rw [← hone]; exact BitVec.sub_eq_add_neg ..) rfl rfl

lemma Inv.deqNode (hpc : s.pc t = .pass op (.deqNode n)) :
    Advances M s slots a t op (.deqNode n) := by
  obtain ⟨-, ⟨⟨c, hserving, hstatus⟩, hnodes⟩, hq⟩ := h.passed hpc
  obtain rfl := hserving.name
  obtain ⟨y, ys, rfl⟩ := exists_cons_of_ne_nil hnodes
  have hnext := hq.next_tail
  have hy : y ∈ s.used := hq.used y (by simp)
  let f : Slot τ ρ → Slot τ ρ := fun x => { x with rNode := s.rNode y }
  have hstep : passStep M s t op (.deqNode (.own c)) =
      some ((s.write (.own c) f).goto t (.pass op (.deqTail (.own c)))) := by
    simp only [passStep]
    rw [hnext, head?_cons, Option.bind_some, if_pos hy]
  have hslot : (s.write (.own c) f).slot (.own c) = f (s.slot (.own c)) := update_self ..
  have hserving' := hserving.congr (write_field (n := .own c) (f := f) Slot.reqAns fun _ => rfl)
  refine .quiet hstep (h.serve hpc
    (.goto _ ⟨rfl, rfl, rfl, rfl⟩ (write_field Slot.next fun _ => rfl)) hserving
    (fun m hm => update_of_ne hm ..) (fun _ _ => rfl) nofun nofun ?_ ?_
    (hq.keep ⟨rfl, rfl, rfl, rfl, rfl⟩ rfl rfl rfl)) rfl
  · intro o ho
    have hreq := hserving.unanswered
    obtain rfl : o = .remove := Op.eq_remove ((ho.values.resolve_left hreq).symm.trans hserving.request)
    change Posted ((s.write (.own c) f).slot (.own c)) _ _ _
    rw [hslot]
    exact ⟨ho.values, (absurd · hreq), ho.waiting, nofun⟩
  · refine ⟨⟨c, hserving'.congr fun _ => rfl, hstatus⟩, y, ys, rfl, ?_⟩
    change ((s.write (.own c) f).slot (.own c)).rNode = _
    rw [hslot]
    rfl

lemma Inv.deqTail (hpc : s.pc t = .pass op (.deqTail n)) :
    Advances M s slots a t op (.deqTail n) := by
  obtain ⟨-, ⟨⟨c, hserving, hstatus⟩, y, ys, rfl, hy⟩, hq⟩ := h.passed hpc
  obtain rfl := hserving.name
  have hreq := hserving.unanswered
  obtain ⟨r, rs, hrs⟩ := hq.queued_cons
  have hr : s.rNode y = some r := hq.first hrs
  have hafter : (fifo ρ).after a.state .remove = ⟨a.state.appended, a.state.removed + 1⟩ :=
    if_pos (Log.removed_lt hrs)
  have hanswer : (fifo ρ).answer a.state .remove = .removed (some r) := by
    change Ans.removed _ = _
    rw [Log.head_queued, hrs]
    rfl
  have hstep : passStep M s t op (.deqTail (.own c)) =
      some (State.goto { s with tail := y } t (.pass op (.deqDelete (.own c) s.tail))) := by
    simp only [passStep]
    rw [hq.next_tail]
    rfl
  have htake := Atomic.Step.take (O := fifo ρ) hstatus
  rw [hafter, hanswer] at htake
  refine ⟨_, ys, _, hstep, ?_, .single htake⟩
  refine h.serve hpc (.goto _ ⟨rfl, rfl, rfl, rfl⟩ fun _ => rfl) hserving (fun _ _ => rfl)
    (fun u hu => update_of_ne hu ..) nofun (fun _ h => (Option.some.inj h).symm) (fun o ho => ho.take hreq rfl) ?_
    (hq.next ⟨rfl, rfl, rfl, rfl, rfl⟩ rfl)
  refine ⟨⟨c, .remove, hserving.congr fun _ => rfl, ?_⟩, hq.used _ mem_cons_self,
    (nodup_cons.mp hq.nodup).1⟩
  refine (update_self ..).trans ?_
  change _ = Status.answered (Ans.removed (s.slot (.own c)).rNode)
  rw [hy, hr]

lemma Inv.deqDelete {currNode : α}
    (hpc : s.pc t = .pass op (.deqDelete n currNode)) : Advances M s slots a t op (.deqDelete n currNode) := by
  obtain ⟨-, ⟨ha, hused, hnot⟩, hq⟩ := h.passed hpc
  exact .quiet (if_pos hused) (h.quiet hpc (.goto (.answer n) ⟨rfl, rfl, rfl, rfl⟩ fun _ => rfl) rfl rfl
    (ha.congr rfl) (hq.delete hnot ⟨rfl, rfl, rfl, rfl, rfl⟩ rfl)) rfl

lemma Inv.deqEmpty (hpc : s.pc t = .pass op (.deqEmpty n)) :
    Advances M s slots a t op (.deqEmpty n) := by
  obtain ⟨-, ⟨c, hserving, hstatus⟩, hq⟩ := h.passed hpc
  obtain rfl := hserving.name
  let f : Slot τ ρ → Slot τ ρ := fun x => { x with rNode := none }
  have hslot : (s.write (.own c) f).slot (.own c) = f (s.slot (.own c)) := update_self ..
  have hserving' := hserving.congr (write_field (n := .own c) (f := f) Slot.reqAns fun _ => rfl)
  refine .quiet rfl (h.serve hpc
    (.goto (.answer (.own c)) ⟨rfl, rfl, rfl, rfl⟩ (write_field Slot.next fun _ => rfl)) hserving
    (fun m hm => update_of_ne hm ..) (fun _ _ => rfl) (fun _ h => (Option.some.inj h).symm)
    (fun _ h => (Option.some.inj h).symm) ?_ ?_ (hq.keep ⟨rfl, rfl, rfl, rfl, rfl⟩ rfl rfl rfl)) rfl
  · intro o ho
    have hreq := hserving.unanswered
    obtain rfl : o = .remove := Op.eq_remove ((ho.values.resolve_left hreq).symm.trans hserving.request)
    change Posted ((s.write (.own c) f).slot (.own c)) _ _ _
    rw [hslot]
    exact ⟨ho.values, (absurd · hreq), fun _ hne => absurd rfl hne, nofun⟩
  · refine ⟨c, .remove, hserving'.congr fun _ => rfl, ?_⟩
    change _ = Status.answered (Ans.removed ((s.write (.own c) f).slot (.own c)).rNode)
    rw [hslot]
    exact hstatus

end

lemma Inv.answer (h : Inv s slots (some t) nodes a) (hpc : s.pc t = .pass op (.answer n)) :
    Advances M s slots a t op (.answer n) := by
  obtain ⟨-, ⟨c, op', hserving, hstatus⟩, hq⟩ := h.passed hpc
  obtain rfl := hserving.name
  obtain ⟨ys, ⟨xs, hxs⟩, hown⟩ := hserving.left
  have hreq := hserving.unanswered
  let f : Slot τ ρ → Slot τ ρ := fun x => { x with reqAns := nullValue }
  have hslot : (s.write (.own c) f).slot (.own c) = f (s.slot (.own c)) := update_self ..
  refine .quiet rfl (h.serve hpc
    (.goto (.advance (.own c)) ⟨rfl, rfl, rfl, rfl⟩ (write_field Slot.next fun _ => rfl)) hserving
    (fun m hm => update_of_ne hm ..) (fun _ _ => rfl) (fun _ h => (Option.some.inj h).symm) nofun ?_ ?_
    (hq.keep ⟨rfl, rfl, rfl, rfl, rfl⟩ rfl rfl rfl)) rfl
  · intro o ho
    change Posted ((s.write (.own c) f).slot (.own c)) _ _ _
    rw [hslot]
    refine ⟨.inl rfl, fun _ => ?_, fun hne => absurd rfl hne, fun hne => absurd rfl hne⟩
    rw [hstatus, Op.result_congr ((ho.values.resolve_left hreq).symm.trans hserving.request)]
  · refine ⟨c, xs, ys, rfl, hxs, fun hne => ?_⟩
    change ((s.write (.own c) f).slot (.own t)).reqAns ≠ _ at hne
    by_cases htc : t = c
    · subst htc
      rw [hslot] at hne
      exact absurd rfl hne
    · rw [write_slot, update_of_ne (by simpa using htc)] at hne
      exact (mem_cons.mp (hown hne)).resolve_left htc

lemma Inv.advances (h : Inv s slots (some t) nodes a) (hpc : s.pc t = .pass op p) :
    Advances M s slots a t op p := by
  cases p with
  | getTail => exact h.getTail hpc
  | visit n => exact h.visit hpc
  | readReq n => exact h.readReq hpc
  | enqLength n => exact h.enqLength hpc
  | enqRead n => exact h.enqRead hpc
  | enqLink n v => exact h.enqLink hpc
  | enqHead n => exact h.enqHead hpc
  | deqTest n => exact h.deqTest hpc
  | deqLength n => exact h.deqLength hpc
  | deqNode n => exact h.deqNode hpc
  | deqTail n => exact h.deqTail hpc
  | deqDelete n currNode => exact h.deqDelete hpc
  | deqEmpty n => exact h.deqEmpty hpc
  | answer n => exact h.answer hpc
  | advance n => exact h.advance hpc

end SmcPim.FcQueue
