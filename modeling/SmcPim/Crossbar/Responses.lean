import SmcPim.Crossbar.Model

/-! # Responses of the PIM crossbar -/

namespace SmcPim.Crossbar

open Runs List State

variable {n : ℕ} {x : Xbar} {s t : State n}

structure Inv (s : State n) : Prop where
  length : s.portList.length = s.pktList.length
  answers : ∀ pkt ∈ s.pktList, pkt.isResponse = true
  flag : s.responseScheduled = !s.pktList.isEmpty
  event : s.scheduled = (s.responseScheduled && s.sending.isNone)
  front : ∀ sent, s.sending = some sent → (s.portList.zip s.pktList).head? = some sent

lemma inv_init : Inv (init n) where
  length := rfl
  answers := by simp [init]
  flag := rfl
  event := rfl
  front := by simp [init]

lemma Inv.sending_none (hinv : Inv s) (hempty : s.pktList = []) : s.sending = none := by
  cases hsend : s.sending with
  | none => rfl
  | some sent =>
    have hfront := hinv.front sent hsend
    simp [hempty] at hfront

lemma Inv.cons (hinv : Inv s) (hne : s.pktList ≠ []) :
    ∃ port ports pkt pkts, s.portList = port :: ports ∧ s.pktList = pkt :: pkts := by
  obtain ⟨pkt, pkts, hpkts⟩ := exists_cons_of_ne_nil hne
  have hlen := hinv.length
  rw [hpkts, length_cons] at hlen
  obtain ⟨port, ports, hports⟩ := exists_cons_of_length_eq_add_one hlen
  exact ⟨port, ports, pkt, pkts, hports, hpkts⟩

lemma Inv.length_waiting (hinv : Inv s) : s.waiting.length = s.pktList.length := by
  rw [waiting, length_zip, length_map, hinv.length, min_self]

/-! ## One call -/

lemma schedule_eq (h : s.scheduled = false) : schedule s = .ok { s with scheduled := true } := by
  rw [schedule, assert_ok h]
  rfl

lemma Inv.enqueue (hinv : Inv s) (port : Fin n) {pkt : Packet} (hpkt : pkt.isResponse = true) :
    ∃ t, enqueue s port pkt = .ok t ∧ Inv t ∧ t.waiting = s.waiting ++ [(port, pkt.ptr)] ∧
      t.delivered = s.delivered := by
  have hwait : (s.portList ++ [port]).zip ((s.pktList ++ [pkt]).map (·.ptr)) =
      s.waiting ++ [(port, pkt.ptr)] := by
    rw [map_append, zip_append (by rw [length_map, hinv.length])]
    rfl
  have hlength : (s.portList ++ [port]).length = (s.pktList ++ [pkt]).length := by
    simp [hinv.length]
  have hanswers : ∀ p ∈ s.pktList ++ [pkt], p.isResponse = true := by
    intro p hp
    rcases mem_append.mp hp with hp | hp
    · exact hinv.answers p hp
    · rw [mem_singleton.mp hp, hpkt]
  unfold Crossbar.enqueue
  cases hflag : s.responseScheduled with
  | false =>
    have hempty : s.pktList = [] := by simpa [hflag] using hinv.flag.symm
    have hsend := hinv.sending_none hempty
    have hevent : s.scheduled = false := by rw [hinv.event, hflag, Bool.false_and]
    rw [if_neg (by simp)]
    exact ⟨_, schedule_eq hevent, ⟨hlength, hanswers, by simp [push], by simp [push, hsend],
      by simp [push, hsend]⟩, hwait, rfl⟩
  | true =>
    have hne : s.pktList ≠ [] := by simpa [hflag] using hinv.flag.symm
    obtain ⟨p, ps, q, qs, hports, hpkts⟩ := hinv.cons hne
    rw [if_pos rfl]
    refine ⟨_, rfl, ⟨hlength, hanswers, by simp [push, hflag], hinv.event, ?_⟩, hwait, rfl⟩
    intro sent hsend
    have hfront := hinv.front sent hsend
    simpa [push, hports, hpkts] using hfront

lemma Inv.recvTimingReq (hinv : Inv s) (port : Fin n) {pkt answer : Packet}
    (hen : Enabled x s (.request port pkt answer)) :
    ∃ t, recvTimingReq x s pkt answer port = .ok t ∧ Inv t ∧
      t.waiting = s.waiting ++ accepted x [.request port pkt answer] ∧ t.delivered = s.delivered := by
  obtain ⟨hneeds, hread, hanswer, hptr⟩ := hen
  have hideal (h : x.ideal pkt = true) :
      ∃ t, Crossbar.enqueue s port answer = .ok t ∧ Inv t ∧
        t.waiting = s.waiting ++ accepted x [.request port pkt answer] ∧ t.delivered = s.delivered := by
    have hacc : accepted x [.request port pkt answer] = [(port, answer.ptr)] := by
      simp [accepted, h, hptr]
    rw [hacc]
    exact hinv.enqueue port (hanswer (hneeds h))
  have hother (h : x.ideal pkt = false) : s.waiting = s.waiting ++ accepted x [.request port pkt answer] := by
    simp [accepted, h]
  unfold Crossbar.recvTimingReq
  split_ifs with hfetch hsnoop hspm
  · have hisRead : pkt.isRead = true := hread (by simp_all [Xbar.idealFetch])
    rw [assert_ok hisRead, ok_bind]
    exact hideal (by simp [Xbar.ideal, hfetch])
  · exact ⟨s, rfl, hinv, hother (by simp [Xbar.ideal, hfetch, hsnoop]), rfl⟩
  · exact hideal (by simp [Xbar.ideal, hsnoop, hspm])
  · exact ⟨s, rfl, hinv, hother (by simp [Xbar.ideal, hfetch, hspm]), rfl⟩

lemma Inv.serviceOne (hinv : Inv s) (hevent : s.scheduled = true) (hsend : s.sending = none) :
    ∃ sent, serviceOne s = .ok { s with scheduled := false, sending := some sent } ∧
      Inv { s with scheduled := false, sending := some sent } := by
  have hflag : s.responseScheduled = true := by simpa [hsend, hevent] using hinv.event.symm
  have hne : s.pktList ≠ [] := by simpa [hflag] using hinv.flag.symm
  obtain ⟨port, ports, pkt, pkts, hports, hpkts⟩ := hinv.cons hne
  have hpkt : pkt.isResponse = true := hinv.answers pkt (by simp [hpkts])
  refine ⟨(port, pkt), ?_, { hinv with event := (by simp), front := ?_ }⟩
  · unfold Crossbar.serviceOne respond
    rw [assert_ok (by simpa using hne), ok_bind, assert_ok hflag, ok_bind]
    simp only [hports, hpkts]
    rw [assert_ok hpkt]
    rfl
  · simp [hports, hpkts]

lemma reschedule_inv (hlength : s.portList.length = s.pktList.length)
    (hanswers : ∀ pkt ∈ s.pktList, pkt.isResponse = true) (hevent : s.scheduled = false) :
    ∃ t, reschedule s = .ok t ∧ Inv t ∧ t.sending = none ∧ t.waiting = s.waiting ∧
      t.delivered = s.delivered := by
  unfold reschedule
  cases hempty : s.pktList.isEmpty with
  | true =>
    exact ⟨_, rfl, ⟨hlength, hanswers, by simp [hempty], by simp [hevent], by simp⟩, rfl, rfl, rfl⟩
  | false =>
    rw [if_neg (by simp), schedule_eq hevent]
    exact ⟨_, rfl, ⟨hlength, hanswers, by simp [hempty], by simp, by simp⟩, rfl, rfl, rfl⟩

lemma Inv.responded (hinv : Inv s) {sent : Fin n × Packet} (hsend : s.sending = some sent)
    (success : Bool) :
    ∃ t, responded s sent success = .ok t ∧ Inv t ∧ t.sending = none ∧
      t.delivered ++ t.waiting = s.delivered ++ s.waiting ∧
      t.delivered.length = s.delivered.length + success.toNat := by
  have hevent : s.scheduled = false := by simp [hinv.event, hsend]
  unfold Crossbar.responded
  cases success with
  | false =>
    obtain ⟨t, ht, hinv', hnone, hwait, hdel⟩ := reschedule_inv hinv.length hinv.answers hevent
    exact ⟨t, ht, hinv', hnone, by rw [hwait, hdel], by simp [hdel]⟩
  | true =>
    have hfront := hinv.front sent hsend
    have hne : s.pktList ≠ [] := by
      intro hempty
      simp [hempty] at hfront
    obtain ⟨port, ports, pkt, pkts, hports, hpkts⟩ := hinv.cons hne
    have hlength := hinv.length
    have hanswers := hinv.answers
    rw [hports, hpkts] at hlength
    rw [hpkts, forall_mem_cons] at hanswers
    obtain rfl : (port, pkt) = sent := by simpa [hports, hpkts] using hfront
    rw [if_pos rfl]
    simp only [hports, hpkts]
    obtain ⟨t, ht, hinv', hnone, hwait, hdel⟩ := reschedule_inv
      (s := { s with portList := ports, pktList := pkts, delivered := s.delivered ++ [(port, pkt.ptr)] })
      (by simpa using hlength) hanswers.2 hevent
    refine ⟨t, ht, hinv', hnone, ?_, by simp [hdel]⟩
    rw [hwait, hdel]
    simp [waiting, hports, hpkts]

lemma Inv.step (hinv : Inv s) {a : Act n} (hen : Enabled x s a) :
    ∃ t, step x s a = .ok t ∧ Inv t ∧ t.delivered ++ t.waiting = s.delivered ++ s.waiting ++ accepted x [a] ∧
      t.delivered.length = s.delivered.length + taken [a] := by
  cases a with
  | request port pkt answer =>
    obtain ⟨t, ht, hinv', hwait, hdel⟩ := hinv.recvTimingReq port hen
    exact ⟨t, ht, hinv', by rw [hwait, hdel, append_assoc], by simp [hdel, taken]⟩
  | fire =>
    obtain ⟨sent, ht, hinv'⟩ := hinv.serviceOne hen.1 hen.2
    exact ⟨_, ht, hinv', by simp [accepted, waiting], by simp [taken]⟩
  | returned success =>
    obtain ⟨sent, hsend⟩ := Option.isSome_iff_exists.mp hen
    obtain ⟨t, ht, hinv', -, hlog, hlen⟩ := hinv.responded hsend success
    refine ⟨t, ?_, hinv', by simp [accepted, hlog], ?_⟩
    · simp only [Crossbar.step, hsend]
      exact ht
    · rw [hlen]
      cases success <;> rfl

lemma accepted_append (acts acts' : List (Act n)) : accepted x
    (acts ++ acts') = accepted x acts ++ accepted x acts' :=
  filterMap_append

lemma inv_run {acts : List (Act n)} (hrun : Steps (Step x) (init n) acts s) :
    Inv s ∧ s.delivered ++ s.waiting = accepted x acts ∧ s.delivered.length = taken acts := by
  refine Steps.inv_history
    (fun acts s => Inv s ∧ s.delivered ++ s.waiting = accepted x acts ∧ s.delivered.length = taken acts)
    ⟨inv_init, rfl, rfl⟩ ?_ hrun
  rintro acts s a t - ⟨hinv, hlog, hlen⟩ ⟨hen, hstep⟩
  obtain ⟨t', ht', hinv', hlog', hlen'⟩ := hinv.step hen
  obtain rfl : t = t' := Except.ok.inj (hstep.symm.trans ht')
  refine ⟨hinv', ?_, ?_⟩
  · rw [hlog', hlog, accepted_append]
  · rw [hlen', hlen, taken, taken, taken, count_append]

/-! ## Deliveries that are taken -/

lemma Inv.deliver (hinv : Inv s) (hsend : s.sending = none) (hne : s.pktList ≠ []) :
    ∃ t, Steps (Step x) s [.fire, .returned true] t ∧ Inv t ∧ t.sending = none ∧
      t.delivered ++ t.waiting = s.delivered ++ s.waiting ∧ t.pktList.length + 1 = s.pktList.length := by
  have hevent : s.scheduled = true := by simp [hinv.event, hinv.flag, hsend, hne]
  obtain ⟨sent, hfire, hfired⟩ := hinv.serviceOne hevent hsend
  obtain ⟨t, ht, hinv', hnone, hlog, hlen⟩ := hfired.responded rfl true
  refine ⟨t, .cons ⟨⟨hevent, hsend⟩, hfire⟩ (.single ⟨rfl, ht⟩), hinv', hnone, hlog, ?_⟩
  have hsum := congrArg List.length hlog
  rw [List.length_append, List.length_append, hlen, hinv'.length_waiting] at hsum
  have hwait : s.waiting.length = s.pktList.length := hinv.length_waiting
  simp only [Bool.toNat_true, waiting] at hsum hwait
  omega

def drain (n : ℕ) : ℕ → List (Act n)
  | 0 => []
  | k + 1 => [.fire, .returned true] ++ drain n k

lemma Inv.drain (hinv : Inv s) (hsend : s.sending = none) :
    ∃ t, Steps (Step x) s (drain n s.pktList.length) t ∧ t.delivered = s.delivered ++ s.waiting := by
  generalize hk : s.pktList.length = k
  induction k generalizing s with
  | zero =>
    have hempty := length_eq_zero_iff.mp hk
    exact ⟨s, .nil s, by simp [waiting, hempty]⟩
  | succ k ih =>
    obtain ⟨t, ht, hinv', hnone, hlog, hlen⟩ := hinv.deliver hsend (ne_nil_of_length_eq_add_one hk)
    obtain ⟨u, hu, hdel⟩ := ih hinv' hnone (by omega)
    exact ⟨u, ht.append hu, by rw [hdel, hlog]⟩

/-- The accesses are answered in order, each once, on the port that it came from. -/
theorem ideal_responses {acts : List (Act n)} (hrun : Steps (Step x) (State.init n) acts s) :
    (∀ a, Enabled x s a → ∃ t, step x s a = .ok t) ∧
    s.delivered = (accepted x acts).take (taken acts) ∧ s.waiting = (accepted x acts).drop (taken acts) ∧
    s.waiting.length = s.pktList.length ∧
    (s.sending = none → (s.scheduled = true ↔ s.pktList ≠ [])) ∧
    (s.sending = none → ∃ t, Steps (Step x) s (drain n s.pktList.length) t ∧ t.delivered = accepted x acts) := by
  obtain ⟨hinv, hlog, hlen⟩ := inv_run hrun
  refine ⟨?_, ?_, ?_, ?_, ?_, ?_⟩
  · intro a hen
    obtain ⟨t, ht, -⟩ := hinv.step hen
    exact ⟨t, ht⟩
  · rw [← hlog, ← hlen, List.take_left]
  · rw [← hlog, ← hlen, List.drop_left]
  · exact hinv.length_waiting
  · intro hsend
    simp [hinv.event, hinv.flag, hsend]
  · intro hsend
    rw [← hlog]
    exact hinv.drain hsend

def bothIdeal : Xbar where
  idealInstrFetch := true
  idealSpmAccess := true
  spmMasterPort := 0
  findPort := fun _ => 0

def readPacket (ptr : ℕ) (instFetch isResponse : Bool) : Packet where
  ptr := ptr
  addr := 0
  instFetch := instFetch
  isRead := true
  needsResponse := !isResponse
  isResponse := isResponse
  isExpressSnoop := false

def reentrant : List (Act 2) :=
  [.request ⟨0, Nat.two_pos⟩ (readPacket 1 true false) (readPacket 1 true true), .fire,
    .request ⟨1, Nat.one_lt_two⟩ (readPacket 2 false false) (readPacket 2 false true),
    .returned false, .fire, .returned true]

theorem ideal_responses_reentrant :
    ∃ s : State 2, Steps (Step bothIdeal) (State.init 2) reentrant s ∧ s.delivered = [(0, 1)] ∧
      s.waiting = [(1, 2)] ∧ (s.sending = none → (s.scheduled = true ↔ s.pktList ≠ [])) := by
  have hrun : Steps (Step bothIdeal) (State.init 2) reentrant
      ⟨[1], [readPacket 2 false true], true, true, none, [(0, 1)]⟩ :=
    .cons ⟨by unfold Enabled; decide, rfl⟩ <| .cons ⟨by unfold Enabled; decide, rfl⟩ <|
    .cons ⟨by unfold Enabled; decide, rfl⟩ <| .cons ⟨rfl, rfl⟩ <|
    .cons ⟨by unfold Enabled; decide, rfl⟩ <| .single ⟨rfl, rfl⟩
  obtain ⟨-, hdelivered, hwaiting, -, hevent, -⟩ := ideal_responses hrun
  exact ⟨_, hrun, hdelivered, hwaiting, hevent⟩

end SmcPim.Crossbar
