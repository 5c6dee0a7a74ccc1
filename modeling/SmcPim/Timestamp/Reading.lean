import SmcPim.Timestamp.Model

/-! # Which logs are read to their end -/

namespace SmcPim.Timestamp

open List Option Header Input

open Checker (str2ulong)

/-! ## Logs as lists of words -/

def afterHeader : List (List Char) → Option (List (List Char))
  | w :: w' :: rest => if w = mainCpp ∧ w' = added then some rest else afterHeader (w' :: rest)
  | _ => none

def initSize (body : List (List Char)) : ℕ := str2ulong (body.headD [])

def announced (body : List (List Char)) : ℕ := str2ulong (body.getD (8 + initSize body + 6) [])

def afterTotal (body : List (List Char)) : List (List Char) := body.drop (8 + initSize body + 7)

def records : ℕ → List (List Char) → ℕ
  | _, [] => 0
  | skip + 1, _ :: rest => records skip rest
  | 0, w :: rest => if w = printFrom then records 6 rest + 1 else records 0 rest

/-- The log has the heading, and no more records than it announces. -/
def Complete (log : Option (List Char)) : Prop :=
  ∃ body, afterHeader (Text.words (log.getD [])) = some body ∧ records 0 (afterTotal body) ≤ announced body

def Finishes (junk : ∀ ttop, Arrays ttop) (log : Option (List Char)) : Prop :=
  ∃ fuel o, timestampTest junk fuel log = some o

def StoresInside (junk : ∀ ttop, Arrays ttop) (log : Option (List Char)) : Prop :=
  ∀ fuel, timestampTest junk fuel log ≠ some .storedOutside

/-! ## Reading words -/

variable {i : Input} {words body : List (List Char)} {s : Header} {ttop n : ℕ}

lemma read_rest (i : Input) : i.read.rest = i.rest.tail := by
  unfold Input.read
  split <;> simp [*]

variable {w : List Char} {rest : List (List Char)}

@[simp] lemma Input.read_cons (w temp : List Char) (rest : List (List Char)) :
    read ⟨w :: rest, temp⟩ = ⟨rest, w⟩ := rfl

lemma read_of_cons (h : i.rest = w :: rest) : i.read = ⟨rest, w⟩ := by
  simp [Input.read, h]

lemma iterate_read_rest (n : ℕ) (i : Input) : (Input.read^[n] i).rest = i.rest.drop n := by
  induction n generalizing i with
  | zero => rfl
  | succ n ih => rw [Function.iterate_succ_apply, ih, read_rest, drop_tail]

lemma iterate_read_temp (hn : n < i.rest.length) : (read^[n + 1] i).temp = i.rest.getD n [] := by
  induction n generalizing i with
  | zero =>
    obtain ⟨w, rest, hrest⟩ := exists_cons_of_length_pos hn
    simp [read_of_cons hrest, hrest]
  | succ n ih =>
    have htail : n < i.read.rest.length := by
      rw [read_rest, length_tail]
      omega
    rw [Function.iterate_succ_apply, ih htail, read_rest]
    simp

lemma iterate_addRead_fst (n : ℕ) (x : Input × List ℕ) : (addRead^[n] x).1 = Input.read^[n] x.1 := by
  induction n generalizing x with
  | zero => rfl
  | succ n ih =>
    rw [Function.iterate_succ_apply, Function.iterate_succ_apply, ih]
    rfl

/-! ## The loop up to the heading -/

lemma mainCpp_ne_added : mainCpp ≠ added := by decide +kernel

lemma mainCpp_ne_nil : mainCpp ≠ [] := by decide +kernel

lemma afterHeader_cons_of_ne (hw : w ≠ mainCpp) : afterHeader (w :: words) = afterHeader words := by
  cases words with
  | nil => rfl
  | cons w' rest => rw [afterHeader, if_neg fun h => hw h.1]

lemma afterHeader_main (hw : w ≠ added) :
    afterHeader (mainCpp :: w :: words) = afterHeader (w :: words) := by
  rw [afterHeader, if_neg fun h => hw h.2]

def Header.pending (s : Header) : List (List Char) :=
  if s.state = 1 then mainCpp :: s.input.rest else s.input.rest

structure Searching (words : List (List Char)) (s : Header) : Prop where
  state : s.state = 0 ∧ s.input.temp ≠ mainCpp ∨ s.state = 1 ∧ s.input.temp = mainCpp
  pending : afterHeader s.pending = afterHeader words

lemma Searching.step (h : Searching words s) :
    (s.input.rest = [] ∧ s.step = s) ∨
      (s.step.input.rest.length < s.input.rest.length ∧
        (Searching words s.step ∨ s.step.state = 2 ∧ afterHeader words = some s.step.input.rest)) := by
  obtain ⟨⟨rest, temp⟩, state, size⟩ := s
  rcases h.state with ⟨hstate, htemp⟩ | ⟨hstate, htemp⟩
  · obtain rfl : state = 0 := hstate
    have hpending : afterHeader rest = afterHeader words := h.pending
    cases rest with
    | nil =>
      refine .inl ⟨rfl, ?_⟩
      have hne : ¬strcomp mainCpp temp = true := fun heq => htemp (strcomp_iff.mp heq).symm
      simp [step, Input.read, hne]
    | cons w rest =>
      refine .inr ⟨by simp [step, Input.read], .inl ?_⟩
      by_cases hw : strcomp mainCpp w = true
      · have hstep : step ⟨⟨w :: rest, temp⟩, 0, size⟩ = ⟨⟨rest, w⟩, 1, size⟩ := by
          simp [step, Input.read, hw]
        rw [hstep]
        refine ⟨.inr ⟨rfl, (strcomp_iff.mp hw).symm⟩, ?_⟩
        rw [← hpending, Header.pending, if_pos rfl, strcomp_iff.mp hw]
      · have hstep : Header.step ⟨⟨w :: rest, temp⟩, 0, size⟩ = ⟨⟨rest, w⟩, 0, size⟩ := by
          simp [Header.step, Input.read, hw]
        have hne : w ≠ mainCpp := fun heq => hw (strcomp_iff.mpr heq.symm)
        rw [hstep]
        refine ⟨.inl ⟨rfl, hne⟩, ?_⟩
        rw [← hpending, Header.pending, if_neg zero_ne_one]
        exact (afterHeader_cons_of_ne hne).symm
  · obtain rfl : state = 1 := hstate
    have hpending : afterHeader (mainCpp :: rest) = afterHeader words := h.pending
    cases rest with
    | nil =>
      refine .inl ⟨rfl, ?_⟩
      simp [step, Input.read, strcomp_iff.mpr htemp.symm]
    | cons w rest =>
      refine .inr ⟨by simp [step, Input.read], ?_⟩
      by_cases hw : strcomp mainCpp w = true
      · have hstep : step ⟨⟨w :: rest, temp⟩, 1, size⟩ = ⟨⟨rest, w⟩, 1, size⟩ := by
          simp [step, Input.read, hw]
        have hmain := (strcomp_iff.mp hw).symm
        rw [hstep]
        refine .inl ⟨.inr ⟨rfl, hmain⟩, ?_⟩
        rw [← hpending, Header.pending, if_pos rfl]
        subst hmain
        exact (afterHeader_main mainCpp_ne_added).symm
      · have hne : w ≠ mainCpp := fun heq => hw (strcomp_iff.mpr heq.symm)
        by_cases hadded : strcomp added w = true
        · have hstep : step ⟨⟨w :: rest, temp⟩, 1, size⟩ = ⟨⟨rest, w⟩, 2, size⟩ := by
            simp [step, Input.read, hw, hadded]
          rw [hstep]
          refine .inr ⟨rfl, ?_⟩
          rw [← hpending]
          exact if_pos ⟨rfl, (strcomp_iff.mp hadded).symm⟩
        · have hstep : step ⟨⟨w :: rest, temp⟩, 1, size⟩ = ⟨⟨rest, w⟩, 0, size⟩ := by
            simp [step, Input.read, hw, hadded]
          rw [hstep]
          refine .inl ⟨.inl ⟨rfl, hne⟩, ?_⟩
          rw [← hpending, Header.pending, if_neg zero_ne_one]
          rw [afterHeader_main fun heq => hadded (strcomp_iff.mpr heq.symm), afterHeader_cons_of_ne hne]

lemma Searching.none_of_nil (h : Searching words s) (hrest : s.input.rest = []) :
    afterHeader words = none := by
  rw [← h.pending, Header.pending, hrest]
  split_ifs <;> rfl

lemma searching_start (words : List (List Char)) : Searching words ⟨⟨words, []⟩, 0, 0⟩ :=
  ⟨.inl ⟨rfl, mainCpp_ne_nil.symm⟩, rfl⟩

lemma Searching.state_ne (h : Searching words s) : (s.state != 3) = true := by
  rcases h.state with ⟨hstate, -⟩ | ⟨hstate, -⟩ <;> simp [hstate]

lemma header_never (h : afterHeader words = none) (fuel : ℕ) :
    whileLoop (fun s => s.state != 3) step fuel ⟨⟨words, []⟩, 0, 0⟩ = none := by
  refine whileLoop_never (Searching words) (fun s hs => hs.state_ne) (fun s hs => ?_) (searching_start words)
  rcases hs.step with ⟨-, hstep⟩ | ⟨-, hsearching | ⟨-, hfound⟩⟩
  · rwa [hstep]
  · exact hsearching
  · rw [h] at hfound
    cases hfound

structure Header.Read (body : List (List Char)) (s : Header) : Prop where
  state : s.state = 3
  rest : s.input.rest = body.drop 8
  size : body ≠ [] → s.initSize = Timestamp.initSize body

def Header.Reaches (words body : List (List Char)) (s : Header) : Prop :=
  Searching words s ∨ (s.state = 2 ∧ s.input.rest = body) ∨ s.Read body

def Header.measure (s : Header) : ℕ := if s.state = 3 then 0 else if s.state = 2 then 1 else s.input.rest.length + 2

lemma Header.read_step (hstate : s.state = 2) : s.step.Read s.input.rest := by
  obtain ⟨⟨rest, temp⟩, state, size⟩ := s
  obtain rfl : state = 2 := hstate
  refine ⟨rfl, ?_, fun hne => ?_⟩
  · change (read^[7] (read ⟨rest, temp⟩)).rest = rest.drop 8
    rw [iterate_read_rest, read_rest, drop_tail]
  · obtain ⟨w, rest, rfl⟩ := exists_cons_of_ne_nil hne
    simp [step, Timestamp.initSize]

lemma Header.Reaches.step (hbody : afterHeader words = some body) (h : s.Reaches words body)
    (hstate : (s.state != 3) = true) : s.step.Reaches words body ∧ s.step.measure < s.measure := by
  rcases h with hsearching | ⟨htwo, hrest⟩ | hread
  · have hmeasure : s.measure = s.input.rest.length + 2 := by
      rcases hsearching.state with ⟨hs, -⟩ | ⟨hs, -⟩ <;> simp [measure, hs]
    rcases hsearching.step with ⟨hrest, -⟩ | ⟨hlt, hnext⟩
    · rw [hsearching.none_of_nil hrest] at hbody
      cases hbody
    · have hlt' : s.step.measure < s.measure := by
        rw [hmeasure, measure]
        split_ifs <;> omega
      rcases hnext with hnext | ⟨htwo, hfound⟩
      · exact ⟨.inl hnext, hlt'⟩
      · rw [hbody] at hfound
        exact ⟨.inr (.inl ⟨htwo, (some.inj hfound).symm⟩), hlt'⟩
  · have hread := read_step htwo
    rw [hrest] at hread
    exact ⟨.inr (.inr hread), by simp [measure, hread.state, htwo]⟩
  · simp [hread.state] at hstate

lemma Header.Reaches.read (h : s.Reaches words body) (hstate : (s.state != 3) = false) :
    s.Read body := by
  rcases h with hsearching | ⟨htwo, -⟩ | hread
  · rw [hsearching.state_ne] at hstate
    cases hstate
  · simp [htwo] at hstate
  · exact hread

/-! ## The loop over the records -/

lemma records_skip (k : ℕ) (words : List (List Char)) : records k words = records 0
    (words.drop k) := by
  induction words generalizing k with
  | nil => simp [records]
  | cons w words ih =>
    cases k with
    | zero => rfl
    | succ k => rw [records, ih, drop_succ_cons]

structure Reading.Counts (total : ℕ) (r : Reading ttop) : Prop where
  total : r.count + records 0 r.input.rest = total
  outside : r.outside = true ↔ ttop < r.count

variable {r : Reading ttop} {total : ℕ}

lemma Reading.step_record (hrest : r.input.rest = w :: rest) (hw : w = printFrom) :
    r.step.input.rest = rest.drop 6 ∧ r.step.count = r.count + 1 ∧
      r.step.outside = (r.outside || decide (ttop ≤ r.count)) := by
  obtain ⟨⟨words, temp⟩, arrays, count, outside⟩ := r
  obtain rfl : words = w :: rest := hrest
  have hcomp : strcomp printFrom w = true := strcomp_iff.mpr hw.symm
  -- Six more words are read, as far as there are.
  have hread : (read (read (read (read (read (read ⟨rest, w⟩)))))).rest =
      rest.drop 6 := iterate_read_rest 6 ⟨rest, w⟩
  by_cases hcount : count < ttop
  · simp [Reading.step, hcomp, hcount, hread]
  · simp [Reading.step, hcomp, hcount, hread, not_lt.mp hcount]

lemma Reading.step_other (hrest : r.input.rest = w :: rest)
    (hw : w ≠ printFrom) : r.step = { r with input := ⟨rest, w⟩ } := by
  obtain ⟨⟨words, temp⟩, arrays, count, outside⟩ := r
  obtain rfl : words = w :: rest := hrest
  have hcomp : ¬strcomp printFrom w = true := fun h => hw (strcomp_iff.mp h).symm
  simp [Reading.step, hcomp]

lemma Reading.Counts.step (h : r.Counts total) (hmore : r.more = true) :
    r.step.Counts total ∧ r.step.input.rest.length < r.input.rest.length := by
  obtain ⟨htotal, houtside⟩ := h
  obtain ⟨w, rest, hrest⟩ := exists_cons_of_ne_nil (l := r.input.rest) (by simpa [Reading.more] using hmore)
  rw [hrest, records] at htotal
  by_cases hw : w = printFrom
  · obtain ⟨hinput, hcount, hout⟩ := Reading.step_record hrest hw
    rw [if_pos hw, records_skip] at htotal
    refine ⟨⟨by rw [hinput, hcount]; omega, ?_⟩, ?_⟩
    · rw [hout, hcount, Bool.or_eq_true, houtside, decide_eq_true_iff]
      omega
    · rw [hinput, hrest, length_drop, length_cons]
      omega
  · rw [if_neg hw] at htotal
    rw [Reading.step_other hrest hw, hrest]
    exact ⟨⟨htotal, houtside⟩, Nat.lt_succ_self _⟩

lemma Reading.Counts.outside_iff (h : r.Counts total) (hmore : r.more = false) :
    r.outside = true ↔ ttop < total := by
  have hrest : r.input.rest = [] := by simpa [Reading.more] using hmore
  have htotal := h.total
  rw [hrest] at htotal
  rw [h.outside, ← htotal]
  rfl

lemma counts_start (input : Input) (arrays : Arrays ttop) :
    (⟨input, arrays, 0, false⟩ : Reading ttop).Counts (records 0 input.rest) :=
  ⟨Nat.zero_add _, by simp⟩

/-! ## The whole program -/

def readTotal (s : Header) : Input := Input.read^[7] (addRead^[s.initSize] (s.input, [])).1

lemma readTotal_rest (h : s.Read body) : (readTotal s).rest = afterTotal body := by
  rw [readTotal, iterate_read_rest, iterate_addRead_fst, iterate_read_rest, h.rest, drop_drop, drop_drop,
    afterTotal]
  by_cases hbody : body = []
  · simp [hbody]
  · rw [h.size hbody, ← Nat.add_assoc]

lemma readTotal_lt_iff (h : s.Read body) :
    str2ulong (readTotal s).temp < records 0 (readTotal s).rest ↔ announced body < records 0 (afterTotal body) := by
  rw [readTotal_rest h]
  by_cases hlength : 8 + initSize body + 7 ≤ body.length
  · have hbody : body ≠ [] := by
      rintro rfl
      simp at hlength
    have hrest : (addRead^[s.initSize] (s.input, [])).1.rest = body.drop (8 + initSize body) := by
      rw [iterate_addRead_fst, iterate_read_rest, h.rest, drop_drop, h.size hbody]
    have htemp : (readTotal s).temp = body.getD (8 + initSize body + 6) [] := by
      rw [readTotal, iterate_read_temp (by rw [hrest, length_drop]; omega), hrest]
      simp [getD_eq_getElem?_getD, getElem?_drop]
    rw [htemp, announced]
  · have hnil : afterTotal body = [] := drop_eq_nil_of_le (by omega)
    simp [hnil, records]

variable {junk : ∀ ttop, Arrays ttop} {fuel : ℕ} {log : Option (List Char)} {o : Outcome}

lemma timestampTest_eq_some (h : timestampTest junk fuel log = some o) :
    ∃ body, afterHeader (Text.words (log.getD [])) = some body ∧
      (o = .storedOutside ↔ announced body < records 0 (afterTotal body)) := by
  unfold timestampTest at h
  obtain ⟨s, hs, h⟩ := bind_eq_some_iff.mp h
  obtain ⟨r, hr, h⟩ := bind_eq_some_iff.mp h
  cases hbody : afterHeader (Text.words (log.getD [])) with
  | none =>
    rw [openLog, header_never hbody] at hs
    cases hs
  | some body =>
    refine ⟨body, rfl, ?_⟩
    obtain ⟨hreaches, hstate⟩ := whileLoop_inv (Header.Reaches (Text.words (log.getD [])) body)
      (fun s hs htest => (hs.step hbody htest).1) (.inl (searching_start _)) hs
    obtain ⟨hcounts, hmore⟩ := whileLoop_inv (Reading.Counts (records 0 (readTotal s).rest))
      (fun r hr htest => (hr.step htest).1) (counts_start _ _) hr
    rw [← readTotal_lt_iff (hreaches.read hstate)]
    refine Iff.trans ?_ (hcounts.outside_iff hmore)
    rw [← some.inj h]
    split_ifs with hout <;> simp [hout]

lemma finishes (hbody : afterHeader (Text.words (log.getD [])) = some body) : Finishes junk log := by
  let fuel := (Text.words (log.getD [])).length + 2 + (afterTotal body).length
  obtain ⟨s, hs, hreaches, hstate⟩ := whileLoop_ends fuel (Header.Reaches (Text.words (log.getD [])) body)
    measure (fun s hs htest => hs.step hbody htest) (.inl (searching_start _)) (Nat.le_add_right _ _)
  have hrest : (readTotal s).rest.length ≤ fuel := by
    rw [readTotal_rest (hreaches.read hstate)]
    exact Nat.le_add_left _ _
  obtain ⟨r, hr, -, -⟩ := whileLoop_ends fuel (Reading.Counts (records 0 (readTotal s).rest))
    (fun r => r.input.rest.length) (fun r hr htest => hr.step htest)
    (counts_start (readTotal s) (junk (str2ulong (readTotal s).temp))) hrest
  exact ⟨_, _, bind_eq_some_iff.mpr ⟨s, hs, bind_eq_some_iff.mpr ⟨r, hr, rfl⟩⟩⟩

/-- The checker stays inside its arrays exactly if the log has the heading and no more records than
it announces. -/
theorem finishes_inside_iff (junk : ∀ ttop, Arrays ttop) (log : Option (List Char)) :
    Finishes junk log ∧ StoresInside junk log ↔ Complete log := by
  constructor
  · rintro ⟨⟨fuel, o, h⟩, hinside⟩
    obtain ⟨body, hbody, hout⟩ := timestampTest_eq_some h
    refine ⟨body, hbody, not_lt.mp fun hlt => ?_⟩
    rw [hout.mpr hlt] at h
    exact hinside fuel h
  · rintro ⟨body, hbody, hle⟩
    refine ⟨finishes hbody, fun fuel h => ?_⟩
    obtain ⟨body', hbody', hout⟩ := timestampTest_eq_some h
    obtain rfl : body = body' := Option.some.inj (hbody.symm.trans hbody')
    exact absurd (hout.mp rfl) (not_lt.mpr hle)

def oneTooMany : List Char :=
  "(main.cpp): added 0 elements to linked list ... printing content: (main.cpp): testing with a total of 0
Print_from_Thread_ID 1: a 5 1 timestamp: 7".toList

/-- Without a log the checker goes on for ever; a record too many is stored behind its arrays. -/
theorem not_finishes_inside :
    let blank : ∀ ttop, Arrays ttop := fun _ => ⟨fun _ => 'a', fun _ => 0, fun _ => false, fun _ => 0⟩
    ¬Finishes blank none ∧ ¬StoresInside blank (some oneTooMany) := by
  refine ⟨?_, fun h => h 40 (by decide +kernel)⟩
  rintro ⟨fuel, o, h⟩
  obtain ⟨body, hbody, -⟩ := timestampTest_eq_some h
  cases hbody

end SmcPim.Timestamp
