import SmcPim.Timestamp.Model

/-!
# The values of some statistics

From `Jack/pull_stats.cpp`: the words of a statistics file are compared with one name of a list after the other.
-/

namespace SmcPim.Stats

open Timestamp (strcomp)

def listSize : ℕ := 20

def cmpList : List (List Char) :=
  ["timestamp6.sim_seconds".toList,
    "timestamp6.sim_ticks".toList,
    "timestamp6.host_inst_rate".toList,
    "timestamp6.host_op_rate".toList,
    "timestamp6.host_tick_rate".toList,
    "timestamp6.host_mem_usage".toList,
    "timestamp6.host_seconds".toList,
    "timestamp6.sim_insts".toList,
    "timestamp6.sim_ops".toList,
    "timestamp6.system.pim_sys.dtlb.tlb_access".toList,
    "timestamp6.system.l2.overall_misses::total".toList,
    "timestamp6.system.l2.ReadExReq_miss_latency::total".toList,
    "softwarestat.kernel.offloadsize".toList,
    "softwarestat.task.datasize".toList,
    "softwarestat.task.pagesize".toList,
    "softwarestat.task.overhead".toList,
    "softwarestat.pages.count".toList,
    "softwarestat.slices.count".toList,
    "softwarestat.slices.reduction".toList,
    "place_holder".toList]

def name (i : ℕ) : List Char := cmpList.getD i []

structure Scan where
  i : ℕ
  check : ℕ → ℕ
  results : ℕ → List Char

def Scan.start : Scan := ⟨0, fun _ => 0, fun _ => []⟩

/-- The body of the inner `if`, where `value` is what `results[i]` is after the read. -/
def Scan.found (s : Scan) (value : List Char) : Scan where
  i := if s.i < listSize - 1 then s.i + 1 else listSize - 1
  check := Function.update s.check s.i 1
  results := Function.update s.results s.i value

/-- The loop, with the words that are left. At the end of the file a read leaves `results[i]` as it is. -/
def Scan.run (s : Scan) : List (List Char) → Scan
  | [] => s
  | temp :: rest =>
    if strcomp temp (name s.i) then
      if s.check s.i = 0 then
        match rest with
        | [] => s.found (s.results s.i)
        | value :: rest => (s.found value).run rest
      else s.run rest
    else s.run rest

/-- The names that are written out and their values, without the last name. -/
def pullStats (words : List (List Char)) : List (List Char) × List (List Char) :=
  ((List.range (listSize - 1)).map name, (List.range (listSize - 1)).map (Scan.start.run words).results)

end SmcPim.Stats
