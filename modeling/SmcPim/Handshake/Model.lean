import SmcPim.Lib.Runs

/-!
# The handshake between the host and the PIM

`PIMAPI::start_computation` and `wait_for_completion` (`SW/HOST/api/pim_api.cc`) against the
main loop of the resident (`SW/PIM/resident/resident.c` and `utils.h`). Every read or write of
a shared register is one step. `pim_assert` and `pim_print_msg` are empty in the release build.
-/

open SmcPim.Runs

namespace SmcPim.Handshake

/-! ## Registers -/

def pimCommandNop : UInt8 := 'N'.toUInt8
def pimCommandHalt : UInt8 := 'H'.toUInt8
def pimCommandDemo : UInt8 := 'D'.toUInt8
def pimCommandRunKernel : UInt8 := 'K'.toUInt8

inductive Status
  | sleep | busy | done
  deriving DecidableEq, Repr

/-! ## The two programs -/

inductive HostPc
  /-- Outside of the two calls: the next one is `start_computation`. -/
  | ready
  /-- In `start_computation`, the command is given, `wake_up` comes next. -/
  | wakeUp
  /-- In `wait_for_completion`, about to read the status. -/
  | checkStatus
  /-- The status was `DONE`, `give_command(PIM_COMMAND_NOP)` comes next. -/
  | giveNop
  deriving DecidableEq, Repr

inductive PimPc
  | wfi
  /-- In `new_command_received`, about to test the command. -/
  | newCommandReceived
  | setBusy
  /-- At the `switch` of `execute_command`. -/
  | executeCommand
  | running (command : UInt8)
  /-- About to write `PIM_M5_REG`, which tells gem5 that the kernel is over. -/
  | timeStamp
  /-- In `command_done`, about to write `DONE`. -/
  | setDone
  /-- In the `while` of `command_done`. -/
  | waitNop
  | setSleep
  /-- Back in `c_entry`, about to write `PIM_DMA_CLI`. -/
  | clearDma
  /-- `pim_error` wrote `PIM_ERROR_REG`, and the memory model ends the simulation. -/
  | exited (msg : String)
  deriving DecidableEq, Repr

structure State where
  command : UInt8
  status : Status
  host : HostPc
  pim : PimPc
  /-- The command of each round so far. -/
  given : List UInt8
  /-- The commands that `execute_command` ran to their end. -/
  executed : List UInt8
  /-- How many calls of `wait_for_completion` have returned. -/
  returned : Nat
  deriving DecidableEq, Repr

def init : State :=
  { command := pimCommandNop, status := .sleep, host := .ready, pim := .wfi
    given := [], executed := [], returned := 0 }

def State.running (s : State) : Bool :=
  match s.pim with
  | .exited _ => false
  | _ => true

/-- One step of `c_entry`. In `wfi` the PIM takes none. -/
def pimStep (s : State) : Option State :=
  match s.pim with
  | .wfi => none
  | .newCommandReceived =>
    if s.command ≠ pimCommandNop then some { s with pim := .setBusy }
    else some { s with pim := .exited "Woke up but no new command has arrived!" }
  | .setBusy => some { s with status := .busy, pim := .executeCommand }
  | .executeCommand =>
    if s.command = pimCommandNop then
      some { s with pim := .exited "Cannot execute NOP command!" }
    else if s.command = pimCommandDemo ∨ s.command = pimCommandRunKernel then
      some { s with pim := .running s.command }
    else if s.command = pimCommandHalt then
      some { s with pim := .exited "Not implemented yet!" }
    else some { s with pim := .exited "Illegal command" }
  | .running c => some { s with executed := s.executed ++ [c], pim := .timeStamp }
  | .timeStamp => some { s with pim := .setDone }
  | .setDone => some { s with status := .done, pim := .waitNop }
  | .waitNop =>
    if s.command ≠ pimCommandNop then some s else some { s with pim := .setSleep }
  | .setSleep => some { s with status := .sleep, pim := .clearDma }
  | .clearDma => some { s with pim := .wfi }
  | .exited _ => none

/-- Posted and cleared by one register write, so that it reaches the PIM only in `wfi`. -/
def interrupt (s : State) : State :=
  if s.pim = .wfi then { s with pim := .newCommandReceived } else s

inductive Label
  | giveCommand (command : UInt8)
  | wakeUp
  | checkStatus
  | giveNop
  | pim
  /-- The PIM leaves `wfi` for another reason, such as an interrupt of the DMA engine. -/
  | otherWake
  deriving DecidableEq, Repr

def next (s : State) (l : Label) : Option State :=
  match l, s.host with
  | .giveCommand c, .ready =>
    if s.running then some { s with command := c, host := .wakeUp, given := s.given ++ [c] }
    else none
  | .wakeUp, .wakeUp =>
    if s.running then some (interrupt { s with host := .checkStatus }) else none
  | .checkStatus, .checkStatus =>
    if s.running then
      some (if s.status = .done then { s with host := .giveNop } else s)
    else none
  | .giveNop, .giveNop =>
    if s.running then
      some { s with command := pimCommandNop, host := .ready, returned := s.returned + 1 }
    else none
  | .pim, _ => pimStep s
  | .otherWake, _ => if s.pim = .wfi then some (interrupt s) else none
  | _, _ => none

/-- Every interleaving of the two programs, with any command in each round. -/
abbrev step : State → Label → State → Prop := Next next

end SmcPim.Handshake
