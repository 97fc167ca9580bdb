import Loquela.Vm.Semantics

/-! # Completed runs

A run of the interpreter as the list of the states its steps start from and the instructions they
execute. The trace of the interpreter, which the prover builds its tables from, is an image of
that list.
-/

namespace Loquela.Completeness
open Rv32i
open Vm

/-- One executed step. -/
structure Executed where
  pc : U32
  timestamp : ℕ
  registers : Registers
  instr : Instr

namespace Executed

variable (x : Executed)

def ticks : ℕ := x.instr.sources.length + 1

/-- What the interpreter records. -/
def step : ExecutionStep where
  state := {
    pc := x.pc
    registers := if x.instr.isJump ∧ x.instr.rd = 0 then x.registers
      else Function.update x.registers x.instr.rd (x.instr.result x.pc x.registers) }
  instructionWord := x.instr.encode
  instruction := ofRv32i x.instr
  memoryOps := loggedOps x.pc x.timestamp x.registers x.instr

/-- The execution state before the step. -/
def entry : U32 × ℕ := (x.pc, x.timestamp)

/-- The execution state after it. -/
def exit : U32 × ℕ := (x.instr.nextPc x.pc x.registers, x.timestamp + x.ticks)

end Executed

/-- The steps lead from one execution state to another. -/
def Leads : U32 × ℕ → List Executed → U32 × ℕ → Prop
  | start, [], finish => start = finish
  | start, x :: xs, finish => x.entry = start ∧ Leads x.exit xs finish

theorem leads_append {start finish : U32 × ℕ} {xs ys : List Executed} :
    Leads start (xs ++ ys) finish ↔ ∃ middle, Leads start xs middle ∧ Leads middle ys finish := by
  induction xs generalizing start with
  | nil => simp [Leads]
  | cons x xs ih => simp [Leads, ih, and_assoc]

/-- A run of `program` that ends in `vm`. -/
structure RunOf (program : List Byte) (xs : List Executed) (vm : VM) : Prop where
  same : vm.program = program
  trace : vm.trace = xs.map Executed.step
  leads : Leads (0, 0) xs (vm.pc, vm.timestamp)
  fetched : ∀ x ∈ xs, fetch program x.pc = some x.instr.encode
  inRange : ∀ x ∈ xs, ¬ x.instr.isJump → x.pc.toNat + 4 < 2 ^ 32

/-- The next instruction of a machine, as an executed step. -/
def executing (vm : VM) (i : Instr) : Executed := ⟨vm.pc, vm.timestamp, vm.registers, i⟩

theorem executing_exit {vm : VM} {i : Instr} {next : U32} (h : vm.next i = some next) :
    (executing vm i).exit = ((vm.after i next).pc, (vm.after i next).timestamp) := by
  rw [next_eq_some h]
  rfl

/-- One more step. -/
theorem RunOf.after {program : List Byte} {xs : List Executed} {vm : VM} {i : Instr} {next : U32}
    (h : RunOf program xs vm) (hfetch : fetch vm.program vm.pc = some i.encode)
    (hnext : vm.next i = some next) :
    RunOf program (xs ++ [executing vm i]) (vm.after i next) := by
  refine ⟨h.same, ?_, ?_, ?_, ?_⟩
  · rw [List.map_append, ← h.trace]
    rfl
  · rw [leads_append]
    exact ⟨_, h.leads, rfl, executing_exit hnext⟩
  · intro y hy
    rcases List.mem_append.mp hy with hy | hy
    · exact h.fetched y hy
    · rw [List.mem_singleton.mp hy, ← h.same]
      exact hfetch
  · intro y hy hjump
    rcases List.mem_append.mp hy with hy | hy
    · exact h.inRange y hy hjump
    · obtain rfl := List.mem_singleton.mp hy
      rw [next_of_not_isJump (i := i) hjump] at hnext
      show vm.pc.toNat + 4 < 2 ^ 32
      by_contra hover
      rw [if_neg hover] at hnext
      exact absurd hnext (Option.some_ne_none next).symm

/-- The `j`-th executed step leads from the machine after `j` steps to the one after `j + 1`. -/
theorem exists_runOf_steps {program : List Byte} {n : ℕ} {vm : VM}
    (h : (VM.new program).steps n = some vm) :
    ∃ xs, RunOf program xs vm ∧ xs.length = n ∧ ∀ (j : ℕ) (hj : j < xs.length),
      ∃ before after, (VM.new program).steps j = some before ∧
        (VM.new program).steps (j + 1) = some after ∧
        xs[j].entry = (before.pc, before.timestamp) ∧ xs[j].exit = (after.pc, after.timestamp) := by
  induction n generalizing vm with
  | zero =>
    obtain rfl := Option.some.inj h
    exact ⟨[], ⟨rfl, rfl, rfl, nofun, nofun⟩, rfl, nofun⟩
  | succ n ih =>
    obtain ⟨mid, hmid, hstep⟩ := Option.bind_eq_some_iff.mp h
    obtain ⟨i, next, hfetch, hnext, rfl⟩ := step_eq_some_iff.mp hstep
    obtain ⟨xs, hrun, rfl, hsteps⟩ := ih hmid
    refine ⟨xs ++ [executing mid i], hrun.after hfetch hnext, by simp, fun j hj => ?_⟩
    by_cases hlast : j < xs.length
    · rw [List.getElem_append_left hlast]
      exact hsteps j hlast
    · have : j = xs.length := by
        rw [List.length_append, List.length_singleton] at hj
        omega
      subst this
      rw [List.getElem_append_right (le_refl _)]
      simp only [Nat.sub_self, List.getElem_singleton]
      exact ⟨mid, _, hmid, h, rfl, executing_exit hnext⟩

theorem exists_runOf {program : List Byte} {n : ℕ} {vm : VM}
    (h : (VM.new program).steps n = some vm) : ∃ xs, RunOf program xs vm := by
  obtain ⟨xs, hrun, -⟩ := exists_runOf_steps h
  exact ⟨xs, hrun⟩

theorem steps_succ_left (vm : VM) (n : ℕ) : vm.steps (n + 1) = vm.step.bind (VM.steps n) := by
  induction n with
  | zero =>
    rw [VM.steps, VM.steps, Option.bind_some, show VM.steps 0 = some from rfl, Option.bind_fun_some]
  | succ n ih =>
    rw [VM.steps, ih, Option.bind_assoc]
    rfl

/-- A completed `run` is a number of steps that leads out of the program. -/
theorem steps_of_run {fuel : ℕ} {vm vm' : VM} (h : vm.run fuel = some vm') :
    ∃ n, vm.steps n = some vm' := by
  induction fuel generalizing vm with
  | zero => exact absurd h (Option.some_ne_none vm').symm
  | succ fuel ih =>
    rw [VM.run] at h
    split_ifs at h with hpc
    · obtain ⟨mid, hstep, hrun⟩ := Option.bind_eq_some_iff.mp h
      obtain ⟨n, hn⟩ := ih hrun
      exact ⟨n + 1, by rw [steps_succ_left, hstep]; exact hn⟩
    · exact ⟨0, h⟩

end Loquela.Completeness
