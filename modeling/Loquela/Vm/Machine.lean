import Loquela.Vm.Instruction
import Mathlib.Data.List.Basic
import Mathlib.Logic.Function.Basic

/-! # The interpreter

`VM::step` fetches four little-endian bytes, decodes them and runs one of 23 arms. Each arm
logs its register accesses in order, advancing the timestamp by hand. A panic of the source
(a fetch outside the program, an unsupported word, an overflow of `pc + 4`) is `none`. The
timestamp is a natural number here, so it agrees with the `u32` of the source below `2 ^ 32`.
-/

namespace Loquela.Vm

inductive MemoryType where
  | register
  | ram
  deriving DecidableEq, Repr

inductive MemoryOperation where
  | read (memoryType : MemoryType) (address : U32) (timestamp : Nat) (value : U32)
  | write (memoryType : MemoryType) (address : U32) (timestamp : Nat) (oldValue newValue : U32)
  deriving DecidableEq, Repr

structure VMState where
  pc : U32
  registers : Registers

/-- One executed step; `state.pc` is the address of the instruction and `state.registers` the
register file after it. -/
structure ExecutionStep where
  state : VMState
  instructionWord : U32
  instruction : Instruction
  memoryOps : List MemoryOperation

/-- The machine between two steps. The `timestamp` of the source is a `u32`; its overflow, after
`2 ^ 32` ticks, is left out. -/
structure VM where
  program : List Byte
  pc : U32
  timestamp : Nat
  trace : List ExecutionStep

def VM.new (program : List Byte) : VM := ⟨program, 0, 0, []⟩

/-- The register file a step starts from: the last recorded one, or all zeros. -/
def VM.registers (vm : VM) : Registers :=
  (vm.trace.getLast?.map (·.state.registers)).getD fun _ => 0

/-- `u32::from_le_bytes` of the four program bytes at `pc`. -/
def fetch (program : List Byte) (pc : U32) : Option U32 := do
  let b0 ← program[pc.toNat]?
  let b1 ← program[pc.toNat + 1]?
  let b2 ← program[pc.toNat + 2]?
  let b3 ← program[pc.toNat + 3]?
  return b3 ++ b2 ++ b1 ++ b0

/-- What one arm of the `match` leaves behind. `jump` is the `self.pc` of the two arms that
return early; the other arms fall through to `self.pc += 4`. -/
structure Effect where
  registers : Registers
  memoryOps : List MemoryOperation
  timestamp : Nat
  jump : Option U32 := none

section Arms

variable (registers : Registers) (timestamp : Nat)

def readRegister (r : Register) (timestamp : Nat) : MemoryOperation :=
  .read .register (r.setWidth 32) timestamp (registers r)

def writeRegister (r : Register) (timestamp : Nat) (newValue : U32) : MemoryOperation :=
  .write .register (r.setWidth 32) timestamp (registers r) newValue

/-- The arms with one source register: read `rs1`, write the result to `rd`. -/
def immediateArm (rd rs1 : Register) (op : U32 → U32) : Effect where
  registers := Function.update registers rd (op (registers rs1))
  memoryOps := [readRegister registers rs1 timestamp,
    writeRegister registers rd (timestamp + 1) (op (registers rs1))]
  timestamp := timestamp + 2

/-- The arms with two source registers: read `rs1`, read `rs2`, write the result to `rd`. -/
def registerArm (rd rs1 rs2 : Register) (op : U32 → U32 → U32) : Effect where
  registers := Function.update registers rd (op (registers rs1) (registers rs2))
  memoryOps := [readRegister registers rs1 timestamp, readRegister registers rs2 (timestamp + 1),
    writeRegister registers rd (timestamp + 2) (op (registers rs1) (registers rs2))]
  timestamp := timestamp + 3

/-- The arms without a source register: write the result to `rd`. -/
def upperArm (rd : Register) (result : U32) : Effect where
  registers := Function.update registers rd result
  memoryOps := [writeRegister registers rd timestamp result]
  timestamp := timestamp + 1

/-- The `Jal` arm: the write to `x0` is dropped, the timestamp advances all the same. -/
def jalArm (pc : U32) (rd : Register) (imm : U32) : Effect where
  registers := if rd ≠ 0 then Function.update registers rd (pc + 4) else registers
  memoryOps := if rd ≠ 0 then [writeRegister registers rd timestamp (pc + 4)] else []
  timestamp := timestamp + 1
  jump := some (pc + imm)

/-- The `Jalr` arm: for `rd = x0` a write of 0 is logged but the register file is left alone. -/
def jalrArm (pc : U32) (rd rs1 : Register) (imm : U32) : Effect :=
  let returnAddr := if rd = 0 then 0 else pc + 4
  { registers := if rd ≠ 0 then Function.update registers rd returnAddr else registers
    memoryOps := [readRegister registers rs1 timestamp,
      writeRegister registers rd (timestamp + 1) returnAddr]
    timestamp := timestamp + 2
    jump := some ((registers rs1 + imm) &&& ~~~1) }

/-- The `match` of `VM::step`. -/
def execute (pc : U32) : Instruction → Effect
  | .addI rd rs1 imm => immediateArm registers timestamp rd rs1 (· + imm.signExtend 32)
  | .xorI rd rs1 imm => immediateArm registers timestamp rd rs1 (· ^^^ imm.signExtend 32)
  | .oriI rd rs1 imm => immediateArm registers timestamp rd rs1 (· ||| imm.signExtend 32)
  | .andiI rd rs1 imm => immediateArm registers timestamp rd rs1 (· &&& imm.signExtend 32)
  | .slliI rd rs1 imm => immediateArm registers timestamp rd rs1 (· <<< (imm &&& 0x1F))
  | .srliI rd rs1 imm => immediateArm registers timestamp rd rs1 (· >>> (imm &&& 0x1F))
  | .sraiI rd rs1 imm => immediateArm registers timestamp rd rs1 (·.sshiftRight' (imm &&& 0x1F))
  | .add rd rs1 rs2 => registerArm registers timestamp rd rs1 rs2 (· + ·)
  | .sub rd rs1 rs2 => registerArm registers timestamp rd rs1 rs2 (· - ·)
  | .xor rd rs1 rs2 => registerArm registers timestamp rd rs1 rs2 (· ^^^ ·)
  | .or rd rs1 rs2 => registerArm registers timestamp rd rs1 rs2 (· ||| ·)
  | .and rd rs1 rs2 => registerArm registers timestamp rd rs1 rs2 (· &&& ·)
  | .sll rd rs1 rs2 => registerArm registers timestamp rd rs1 rs2 fun a b => a <<< (b &&& 0x1F)
  | .srl rd rs1 rs2 => registerArm registers timestamp rd rs1 rs2 fun a b => a >>> (b &&& 0x1F)
  | .sra rd rs1 rs2 =>
    registerArm registers timestamp rd rs1 rs2 fun a b => a.sshiftRight' (b &&& 0x1F)
  | .slt rd rs1 rs2 =>
    registerArm registers timestamp rd rs1 rs2 fun a b => if a.slt b then 1 else 0
  | .sltu rd rs1 rs2 => registerArm registers timestamp rd rs1 rs2 fun a b => if a < b then 1 else 0
  | .sltiI rd rs1 imm => immediateArm registers timestamp rd rs1 fun a => if a.slt imm then 1 else 0
  | .sltiuI rd rs1 imm => immediateArm registers timestamp rd rs1 fun a => if a < imm then 1 else 0
  | .lui rd imm => upperArm registers timestamp rd (imm <<< 12)
  | .auipc rd imm => upperArm registers timestamp rd (pc + imm <<< 12)
  | .jal rd imm => jalArm registers timestamp pc rd imm
  | .jalr rd rs1 imm => jalrArm registers timestamp pc rd rs1 imm

end Arms

/-- The `self.pc` after a step: the jump target, else `self.pc += 4` with its overflow check. -/
def nextPc (pc : U32) : Option U32 → Option U32
  | some target => some target
  | none => if pc.toNat + 4 < 2 ^ 32 then some (pc + 4) else none

def VM.step (vm : VM) : Option VM := do
  let instructionWord ← fetch vm.program vm.pc
  let instruction ← decodeInstruction instructionWord
  let effect := execute vm.registers vm.timestamp vm.pc instruction
  let pc ← nextPc vm.pc effect.jump
  return { vm with
    pc := pc
    timestamp := effect.timestamp
    trace := vm.trace ++
      [⟨⟨vm.pc, effect.registers⟩, instructionWord, instruction, effect.memoryOps⟩] }

/-- `VM::run`, its `while` loop given fuel; `none` is a panic or too little fuel. -/
def VM.run : Nat → VM → Option VM
  | 0, _ => none
  | fuel + 1, vm =>
    if vm.pc.toNat < vm.program.length then vm.step.bind (VM.run fuel) else some vm

/-- `n` calls of `step` in a row. -/
def VM.steps : Nat → VM → Option VM
  | 0, vm => some vm
  | n + 1, vm => (vm.steps n).bind VM.step

def VM.getMemoryOps (vm : VM) : List MemoryOperation := vm.trace.flatMap (·.memoryOps)

end Loquela.Vm
