import Loquela.Library.Replay
import Loquela.Vm.Semantics
import Mathlib.Data.Nat.SuccPred
import Mathlib.Tactic.IntervalCases

/-! # The memory log against the register file

Each arm of `VM::step` produces its log entries apart from its register update. The two agree
along a run as long as no `jalr x0` is executed while `x0` holds a nonzero value: that arm
logs a write of 0 to `x0` and leaves the register alone.
-/

namespace Loquela.Vm
open Loquela.Library.Replay Loquela.Rv32i

/-- A log entry as an access to a cell, the value it reports as read and the value it leaves. -/
def MemoryOperation.access : MemoryOperation → Access (MemoryType × U32) U32
  | .read memoryType address timestamp value => ⟨(memoryType, address), timestamp, value, value⟩
  | .write memoryType address timestamp oldValue newValue =>
    ⟨(memoryType, address), timestamp, oldValue, newValue⟩

def registerCell (r : Register) : MemoryType × U32 := (.register, r.setWidth 32)

theorem registerCell_injective : Function.Injective registerCell := by
  intro r s h
  have h' := congrArg (BitVec.setWidth 5) (Prod.ext_iff.mp h).2
  simpa [registerCell] using h'

def VM.log (vm : VM) : List (Access (MemoryType × U32) U32) :=
  vm.getMemoryOps.map MemoryOperation.access

abbrev zeroMemory : MemoryType × U32 → U32 := fun _ => 0

/-- Timestamps increase, every operation reports the value left by the latest earlier one on
its register, and replaying the log gives the register file of the last step. -/
structure LogCoherent (vm : VM) : Prop where
  increasing : vm.log.Pairwise fun x y => x.time < y.time
  consistent : Consistent 0 vm.log
  replayed : ∀ r, replay zeroMemory vm.log (registerCell r) = vm.registers r

/-- The next instruction is `jalr x0` while `x0` holds a nonzero value. -/
def DropsReturn (vm : VM) : Prop :=
  vm.registers 0 ≠ 0 ∧
    ∃ (rs1 : Register) (imm : BitVec 12), fetch vm.program vm.pc = some (Instr.jalr 0 rs1 imm).encode

/-- The log of one step, as accesses. -/
def stepLog (vm : VM) (i : Instr) : List (Access (MemoryType × U32) U32) :=
  (loggedOps vm.pc vm.timestamp vm.registers i).map MemoryOperation.access

theorem after_log (vm : VM) (i : Instr) (next : U32) :
    (vm.after i next).log = vm.log ++ stepLog vm i := by
  rw [VM.log, after_getMemoryOps, List.map_append]
  rfl

def readAccess (vm : VM) (r : Register) (time : Nat) : Access (MemoryType × U32) U32 :=
  ⟨registerCell r, time, vm.registers r, vm.registers r⟩

def writeAccess (vm : VM) (r : Register) (time : Nat) (value : U32) :
    Access (MemoryType × U32) U32 :=
  ⟨registerCell r, time, vm.registers r, value⟩

theorem stepLog_eq (vm : VM) (i : Instr) : stepLog vm i =
    i.sources.mapIdx (fun k r => readAccess vm r (vm.timestamp + k)) ++
      ((loggedWrite vm.pc vm.registers i).map
        (writeAccess vm i.rd (vm.timestamp + i.sources.length))).toList := by
  rw [stepLog, loggedOps, List.map_append]
  congr 1
  · cases i <;> rfl
  · cases loggedWrite vm.pc vm.registers i <;> rfl

theorem stepLog_times (vm : VM) (i : Instr) :
    ((stepLog vm i).Pairwise fun x y => x.time < y.time) ∧
      ∀ x ∈ stepLog vm i, vm.timestamp ≤ x.time ∧ x.time < vm.timestamp + i.sources.length + 1 := by
  rw [stepLog_eq]
  cases loggedWrite vm.pc vm.registers i <;> cases i <;>
    simp [Instr.sources, readAccess, writeAccess]

theorem log_increasing {program : List Byte} {n : Nat} {vm : VM}
    (h : (VM.new program).steps n = some vm) :
    (vm.log.Pairwise fun x y => x.time < y.time) ∧ ∀ x ∈ vm.log, x.time < vm.timestamp := by
  refine steps_induction (P := fun vm => (vm.log.Pairwise fun x y => x.time < y.time) ∧
    ∀ x ∈ vm.log, x.time < vm.timestamp) h ⟨List.Pairwise.nil, List.forall_mem_nil _⟩ ?_
  rintro vm i next ⟨hsorted, hbound⟩ - -
  obtain ⟨hstep, hrange⟩ := stepLog_times vm i
  rw [after_log, after_timestamp]
  refine ⟨List.pairwise_append.mpr ⟨hsorted, hstep, fun x hx y hy => ?_⟩, fun x hx => ?_⟩
  · exact (hbound x hx).trans_le (hrange y hy).1
  · rcases List.mem_append.mp hx with hx | hx
    · have := hbound x hx
      omega
    · exact (hrange x hx).2

/-- The register file agrees with the replayed memory `m`. -/
def Matches (m : MemoryType × U32 → U32) (registers : Registers) : Prop :=
  ∀ r, m (registerCell r) = registers r

theorem read_of_mem_stepLog {vm : VM} {i : Instr} {x : Access (MemoryType × U32) U32}
    (hx : x ∈ stepLog vm i) {r : Register} (hr : x.address = registerCell r) :
    x.read = vm.registers r := by
  rw [stepLog_eq, List.mem_append] at hx
  rcases hx with hx | hx
  · obtain ⟨k, hk, rfl⟩ := List.mem_mapIdx.mp hx
    rw [← registerCell_injective hr]
    rfl
  · obtain ⟨value, -, rfl⟩ := Option.map_eq_some_iff.mp (Option.mem_toList.mp hx)
    rw [← registerCell_injective hr]
    rfl

/-- The reads of a step change nothing, so only the logged write shows in the replay. -/
theorem stepLog_coherent {vm : VM} {m : MemoryType × U32 → U32} (i : Instr)
    (h : Matches m vm.registers) :
    Coherent m (stepLog vm i) ∧ replay m (stepLog vm i) =
      match loggedWrite vm.pc vm.registers i with
      | none => m
      | some value => Function.update m (registerCell i.rd) value := by
  have hreads : ∀ x ∈ i.sources.mapIdx (fun k r => readAccess vm r (vm.timestamp + k)),
      x.read = m x.address ∧ x.write = m x.address := by
    intro x hx
    obtain ⟨k, hk, rfl⟩ := List.mem_mapIdx.mp hx
    exact ⟨(h _).symm, (h _).symm⟩
  obtain ⟨hcoherent, hreplay⟩ := coherent_reads hreads
  rw [stepLog_eq, coherent_append, replay_append, hreplay]
  cases loggedWrite vm.pc vm.registers i with
  | none => exact ⟨⟨hcoherent, trivial⟩, rfl⟩
  | some value => exact ⟨⟨hcoherent, (h i.rd).symm, trivial⟩, rfl⟩

/-- The register file and the replayed log agree. -/
def InStep (vm : VM) : Prop :=
  Coherent zeroMemory vm.log ∧ Matches (replay zeroMemory vm.log) vm.registers

/-- The log is broken, or `x0` holds a value that the log does not know of. -/
def Drifted (vm : VM) : Prop :=
  ¬ Coherent zeroMemory vm.log ∨
    replay zeroMemory vm.log (registerCell 0) = 0 ∧ vm.registers 0 ≠ 0

theorem not_inStep_of_drifted {vm : VM} (h : Drifted vm) : ¬ InStep vm := by
  rintro ⟨hcoherent, hmatches⟩
  rcases h with h | ⟨hzero, hne⟩
  · exact h hcoherent
  · exact hne (hmatches 0 ▸ hzero)

theorem matches_update {m : MemoryType × U32 → U32} {registers : Registers}
    (h : Matches m registers) (rd : Register) (value : U32) :
    Matches (Function.update m (registerCell rd) value) (Function.update registers rd value) := by
  intro r
  by_cases hr : r = rd
  · rw [hr, Function.update_self, Function.update_self]
  · rw [Function.update_of_ne (registerCell_injective.ne hr), Function.update_of_ne hr, h r]

theorem loggedWrite_of_not_jump {i : Instr} (h : ¬ (i.isJump ∧ i.rd = 0)) (pc : U32)
    (registers : Registers) : loggedWrite pc registers i = some (i.result pc registers) := by
  cases i with
  | jal rd offset => exact if_neg fun hrd => h ⟨rfl, hrd⟩
  | jalr rd rs1 imm => exact congrArg some (if_neg fun hrd => h ⟨rfl, hrd⟩)
  | _ => rfl

theorem inStep_after {vm : VM} {i : Instr} (next : U32)
    (hfetch : fetch vm.program vm.pc = some i.encode) (h : InStep vm) (hdrop : ¬ DropsReturn vm) :
    InStep (vm.after i next) := by
  obtain ⟨hcoherent, hmatches⟩ := h
  obtain ⟨hstep, hreplay⟩ := stepLog_coherent i hmatches
  rw [InStep, after_log, coherent_append, replay_append, hreplay, after_registers]
  refine ⟨⟨hcoherent, hstep⟩, ?_⟩
  by_cases hjump : i.isJump ∧ i.rd = 0
  · rw [if_pos hjump]
    cases i with
    | jal rd offset =>
      obtain rfl : rd = 0 := hjump.2
      exact hmatches
    | jalr rd rs1 imm =>
      obtain rfl : rd = 0 := hjump.2
      have hx0 : vm.registers 0 = 0 := by
        by_contra hne
        exact hdrop ⟨hne, rs1, imm, hfetch⟩
      have hupdate := matches_update hmatches 0 0
      rwa [← hx0, Function.update_eq_self, hx0] at hupdate
    | _ => cases hjump.1
  · rw [if_neg hjump, loggedWrite_of_not_jump hjump]
    exact matches_update hmatches i.rd _

theorem drifted_of_dropsReturn {vm : VM} {i : Instr} (next : U32)
    (hfetch : fetch vm.program vm.pc = some i.encode) (h : InStep vm) (hdrop : DropsReturn vm) :
    Drifted (vm.after i next) := by
  obtain ⟨hx0, rs1, imm, hjalr⟩ := hdrop
  obtain rfl := encode_injective (Option.some.inj (hfetch.symm.trans hjalr))
  obtain ⟨-, hreplay⟩ := stepLog_coherent (.jalr 0 rs1 imm) h.2
  refine .inr ⟨?_, by rwa [after_registers, if_pos ⟨rfl, rfl⟩]⟩
  rw [after_log, replay_append, hreplay]
  exact Function.update_self _ _ _

/-- Once drifted, always drifted: the next access to `x0` reports the unlogged value. -/
theorem drifted_after {vm : VM} {i : Instr} (next : U32) (h : Drifted vm) :
    Drifted (vm.after i next) := by
  rw [Drifted, after_log, coherent_append, replay_append]
  rcases h with h | ⟨hzero, hx0⟩
  · exact .inl fun hboth => h hboth.1
  by_cases hstep : Coherent (replay zeroMemory vm.log) (stepLog vm i)
  · by_cases htouch : ∃ x ∈ stepLog vm i, x.address = registerCell 0
    · obtain ⟨x, hx, hx0', hread⟩ := exists_first_read hstep htouch
      rw [hzero, read_of_mem_stepLog hx hx0'] at hread
      exact absurd hread hx0
    · push Not at htouch
      refine .inr ⟨by rw [replay_of_forall_ne htouch, hzero], ?_⟩
      rw [after_registers]
      split_ifs with hjump
      · exact hx0
      · have hrd : i.rd ≠ 0 := by
          intro hrd
          refine htouch (writeAccess vm i.rd (vm.timestamp + i.sources.length)
            (i.result vm.pc vm.registers)) ?_ (congrArg registerCell hrd)
          rw [stepLog_eq, loggedWrite_of_not_jump hjump]
          exact List.mem_append_right _ (List.mem_singleton.mpr rfl)
        rwa [Function.update_of_ne hrd.symm]
  · exact .inl fun hboth => hstep hboth.2

/-- A run is in step until the first dropped return and drifted from then on. -/
theorem inStep_iff {program : List Byte} {n : Nat} {vm : VM}
    (h : (VM.new program).steps n = some vm) :
    InStep vm ↔ ∀ m < n, ∀ mid, (VM.new program).steps m = some mid → ¬ DropsReturn mid := by
  have hrun : (InStep vm ∧ ∀ m < n, ∀ mid, (VM.new program).steps m = some mid →
        ¬ DropsReturn mid) ∨
      (Drifted vm ∧ ∃ m < n, ∃ mid, (VM.new program).steps m = some mid ∧ DropsReturn mid) := by
    induction n generalizing vm with
    | zero =>
      obtain rfl := Option.some.inj h
      exact .inl ⟨⟨trivial, fun _ => rfl⟩, fun m hm => absurd hm (Nat.not_lt_zero m)⟩
    | succ n ih =>
      obtain ⟨mid, hmid, hstep⟩ := Option.bind_eq_some_iff.mp h
      obtain ⟨i, next, hfetch, -, rfl⟩ := step_eq_some_iff.mp hstep
      rcases ih hmid with ⟨hin, hclean⟩ | ⟨hdrift, m, hm, m', hm', hdrop⟩
      · by_cases hdrop : DropsReturn mid
        · exact .inr ⟨drifted_of_dropsReturn next hfetch hin hdrop, n, n.lt_succ_self, mid, hmid,
            hdrop⟩
        · refine .inl ⟨inStep_after next hfetch hin hdrop, fun m hm m' hm' => ?_⟩
          rcases Nat.lt_succ_iff_lt_or_eq.mp hm with hm | rfl
          · exact hclean m hm m' hm'
          · rwa [← Option.some.inj (hmid.symm.trans hm')]
      · exact .inr ⟨drifted_after next hdrift, m, hm.trans n.lt_succ_self, m', hm', hdrop⟩
  constructor
  · intro hin
    rcases hrun with ⟨-, hclean⟩ | ⟨hdrift, -⟩
    · exact hclean
    · exact absurd hin (not_inStep_of_drifted hdrift)
  · intro hclean
    rcases hrun with ⟨hin, -⟩ | ⟨-, m, hm, mid, hmid, hdrop⟩
    · exact hin
    · exact absurd hdrop (hclean m hm mid hmid)

/-- The memory log of a run is coherent exactly as long as no executed step was a `jalr x0`
with a nonzero `x0`. -/
theorem logCoherent_iff {program : List Byte} {n : Nat} {vm : VM}
    (h : (VM.new program).steps n = some vm) :
    LogCoherent vm ↔
      ∀ m < n, ∀ mid, (VM.new program).steps m = some mid → ¬ DropsReturn mid := by
  rw [← inStep_iff h]
  have hsorted := (log_increasing h).1
  constructor
  · intro hlog
    exact ⟨(coherent_iff_consistent hsorted).mpr hlog.consistent, hlog.replayed⟩
  · rintro ⟨hcoherent, hmatches⟩
    exact ⟨hsorted, (coherent_iff_consistent hsorted).mp hcoherent, hmatches⟩

/-- `addi x0, x0, 0` then `jal x0, 8`. -/
def keepsLog : List Byte := [0x13, 0x00, 0x00, 0x00, 0x6F, 0x00, 0x80, 0x00]

theorem logCoherent_keepsLog : ∃ vm, (VM.new keepsLog).steps 2 = some vm ∧ LogCoherent vm := by
  have hrun : (VM.new keepsLog).steps 2 = some _ := rfl
  refine ⟨_, hrun, (logCoherent_iff hrun).mpr ?_⟩
  intro m hm mid hmid hdrop
  interval_cases m <;> exact hdrop.1 (Option.some.inj hmid ▸ rfl)

/-- `addi x0, x0, 5` then `jalr x0, x0, 8`. -/
def dropsReturn : List Byte := [0x13, 0x00, 0x50, 0x00, 0x67, 0x00, 0x80, 0x00]

theorem logCoherent_violated :
    ¬ ∀ (program : List Byte) (n : Nat) (vm : VM), (VM.new program).steps n = some vm →
      LogCoherent vm := by
  intro h
  have hx0 := (h dropsReturn 2 _ rfl).replayed 0
  revert hx0
  decide

end Loquela.Vm
