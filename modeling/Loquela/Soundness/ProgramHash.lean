import Loquela.Air.Tables
import Loquela.Soundness.Rom

/-! # The program hash and the ROM

The hash table and the ROM meet on the `program_image` bus, where every byte is keyed by its
position. The active slots of the hash table are consecutive positions from 0, and so are the
real rows of the ROM, so the bus makes them the same bytes; the sponge chain then ends in their
digest.
-/

namespace Loquela.Soundness
open Air Library Library.Bus Library.Prefix
open Vm (Byte)

variable {F : Type*} [Field F]

section Row

variable [DecidableEq F] {c next : ProgramHashColumns F}

def activeSlots (c : ProgramHashColumns F) : List (Fin 24) :=
  (List.finRange 24).filter fun i => c.isActive i = 1

/-- The bytes a row absorbs. -/
def absorbed (c : ProgramHashColumns F) : List F := (activeSlots c).map c.bytes

theorem length_absorbed : (absorbed c).length = (activeSlots c).length := List.length_map _

theorem length_absorbed_le : (absorbed c).length ≤ 24 := by
  rw [length_absorbed]
  exact (List.length_filter_le _ _).trans_eq (List.length_finRange)

theorem activeSlots_falling (h : c.evalRow next) :
    Falling (fun i => decide (c.isActive i = 1)) (List.finRange 24) := by
  apply List.isChain_iff_getElem.mpr
  intro k hk hactive
  rw [List.length_finRange] at hk
  have hstep := h.2.2.1 ⟨k, by omega⟩
  have hnext : c.isActive (Fin.succ ⟨k, by omega⟩) = 1 := by simpa using hactive
  rw [hnext, one_mul, sub_eq_zero] at hstep
  simpa using hstep.symm

/-- The active slots are the first ones. -/
theorem getElem_activeSlots (h : c.evalRow next) {j : ℕ} (hj : j < (activeSlots c).length) :
    ((activeSlots c)[j] : ℕ) = j := getElem_filter_finRange (activeSlots_falling h) hj

theorem isActive_iff (h : c.evalRow next) (i : Fin 24) :
    c.isActive i = 1 ↔ (i : ℕ) < (absorbed c).length := by
  have hmem : c.isActive i = 1 ↔ i ∈ activeSlots c := by simp [activeSlots]
  rw [hmem, length_absorbed]
  constructor
  · intro hi
    obtain ⟨j, hj, rfl⟩ := List.getElem_of_mem hi
    rwa [getElem_activeSlots h hj]
  · intro hi
    have hslot : (activeSlots c)[(i : ℕ)] = i := Fin.ext (getElem_activeSlots h hi)
    rw [← hslot]
    exact List.getElem_mem hi

theorem getElem_absorbed (h : c.evalRow next) {j : ℕ} (hj : j < (absorbed c).length) :
    (absorbed c)[j] = c.bytes ⟨j, hj.trans_le length_absorbed_le⟩ := by
  rw [length_absorbed] at hj
  have hslot : (activeSlots c)[j] = ⟨j, hj.trans_le (length_absorbed (c := c) ▸ length_absorbed_le)⟩ :=
    Fin.ext (getElem_activeSlots h hj)
  simp only [absorbed, List.getElem_map, hslot]

/-- The slots past the absorbed bytes are zero. -/
theorem bytes_eq_getD (h : c.evalRow next) (i : Fin 24) :
    c.bytes i = (absorbed c)[(i : ℕ)]?.getD 0 := by
  by_cases hi : (i : ℕ) < (absorbed c).length
  · rw [List.getElem?_eq_getElem hi, Option.getD_some, getElem_absorbed h hi]
  · have hinactive : c.isActive i = 0 :=
      (assertBool_iff.mp (h.2.1 i)).resolve_right fun hactive => hi ((isActive_iff h i).mp hactive)
    rw [List.getElem?_eq_none (not_lt.mp hi), Option.getD_none]
    simpa [hinactive] using h.2.2.2.2.2.1 i

theorem rowSum_eq (h : c.evalRow next) : c.rowSum = ((absorbed c).length : F) := by
  rw [ProgramHashColumns.rowSum, Fin.sum_univ_def, length_absorbed, activeSlots]
  exact Bits.sum_eq_count fun i _ => assertBool_iff.mp (h.2.1 i)

theorem absorbed_eq_nil (h : c.evalRow next) (hflag : c.flag = 0) : absorbed c = [] := by
  by_contra hne
  have hactive := (isActive_iff h 0).mpr (List.length_pos_of_ne_nil hne)
  rw [h.2.2.2.2.1, hflag] at hactive
  exact zero_ne_one hactive

theorem absorbed_ne_nil (h : c.evalRow next) (hflag : c.flag = 1) : absorbed c ≠ [] :=
  List.ne_nil_of_length_pos ((isActive_iff h 0).mp (h.2.2.2.2.1.trans hflag))

theorem length_absorbed_eq (h : c.evalRow next) (hfull : c.isActive 23 = 1) :
    (absorbed c).length = 24 :=
  length_absorbed_le.antisymm ((isActive_iff h 23).mp hfull)

end Row

section Sends

variable [DecidableEq F] {c next : ProgramHashColumns F}

theorem selected_hash_send (bus : BusName) : selected .send bus c.lookups =
    (if .programImage = bus then
      (activeSlots c).map fun i : Fin 24 => [c.baseAddr + ((i : ℕ) : F), c.bytes i] else []) ++
    (if .bytes = bus then (activeSlots c).map fun i => [c.bytes i] else []) ++
    (if .poseidon2Perm = bus ∧ c.flag = 1 then
      [List.ofFn c.permIn ++ List.ofFn c.permOut] else []) := by
  rw [ProgramHashColumns.lookups, List.ofFn_eq_map, List.ofFn_eq_map, selected_append,
    selected_append, selected_map_send, selected_map_send, selected_cons, send_selected,
    selected_nil, List.append_nil]
  simp only [activeSlots, true_and]

theorem selected_programImage (h : c.evalRow next) :
    selected .send .programImage c.lookups =
      (absorbed c).mapIdx fun j v => [c.baseAddr + (j : F), v] := by
  rw [selected_hash_send]
  apply List.ext_getElem
  · simp [length_absorbed]
  · intro j hj hj'
    have hslot : j < (activeSlots c).length := by simpa using hj
    simp [absorbed, getElem_activeSlots h hslot]

theorem selected_bytes : selected .send .bytes c.lookups = (absorbed c).map fun v => [v] := by
  simp [selected_hash_send, absorbed]

theorem selected_poseidon2Perm : selected .send .poseidon2Perm c.lookups =
    if c.flag = 1 then [List.ofFn c.permIn ++ List.ofFn c.permOut] else [] := by
  simp [selected_hash_send]

end Sends

/-- What the constraints say of a table's rows from some row on. -/
structure Linked (rows : List (ProgramHashColumns F)) : Prop where
  chain : rows.IsChain fun c next => c.evalRow next ∧ c.evalTransition next
  last : ∀ c ∈ rows.getLast?, c.flag = 0 ∧ ∃ next, c.evalRow next

section Chain

theorem Linked.of_eval {rows : List (ProgramHashColumns F)} {pub : PublicValues F}
    (h : programHashEval rows pub) : Linked rows := by
  obtain ⟨hrow, -, hlast, htransition⟩ := h
  constructor
  · apply List.isChain_iff_getElem.mpr
    intro k hk
    exact ⟨List.isChain_iff_getElem.mp (isChain_of_zip_rotate hrow) k hk,
      List.isChain_iff_getElem.mp htransition k hk⟩
  · intro c hc
    exact ⟨(hlast c hc).1, exists_next_of_zip_rotate hrow (List.mem_of_getLast? hc)⟩

variable {c c' : ProgramHashColumns F} {rest : List (ProgramHashColumns F)}

theorem Linked.tail (h : Linked (c :: c' :: rest)) : Linked (c' :: rest) :=
  ⟨h.chain.tail, h.last⟩

theorem Linked.step (h : Linked (c :: c' :: rest)) : c.evalRow c' ∧ c.evalTransition c' :=
  (List.isChain_cons_cons.mp h.chain).1

theorem Linked.evalRow (h : Linked (c :: rest)) : ∃ next, c.evalRow next := by
  cases rest with
  | nil => exact (h.last c rfl).2
  | cons c' rest => exact ⟨c', h.step.1⟩

variable [DecidableEq F]

/-- The bytes absorbed by a table, in the order of its rows. -/
def hashBytes (rows : List (ProgramHashColumns F)) : List F := rows.flatMap absorbed

theorem hashBytes_cons (c : ProgramHashColumns F) (rest : List (ProgramHashColumns F)) :
    hashBytes (c :: rest) = absorbed c ++ hashBytes rest := List.flatMap_cons

/-- Below a padding row there is only padding. -/
theorem hashBytes_eq_nil (h : Linked (c :: rest)) (hflag : c.flag = 0) :
    hashBytes (c :: rest) = [] := by
  induction rest generalizing c with
  | nil =>
    obtain ⟨next, hrow⟩ := h.evalRow
    rw [hashBytes_cons, absorbed_eq_nil hrow hflag]
    rfl
  | cons c' rest ih =>
    obtain ⟨hrow, hfall, -⟩ := h.step
    have hflag' : c'.flag = 0 := by simpa [hflag] using hfall
    rw [hashBytes_cons, absorbed_eq_nil hrow hflag, List.nil_append]
    exact ih h.tail hflag'

/-- Only the last row that absorbs anything may be partial. -/
theorem hashBytes_nil_or_full (h : Linked (c :: rest)) :
    hashBytes rest = [] ∨ (absorbed c).length = 24 := by
  cases rest with
  | nil => exact .inl rfl
  | cons c' rest =>
    obtain ⟨hrow, hfall, hfull, -⟩ := h.step
    obtain ⟨next, hrow'⟩ := h.tail.evalRow
    rcases assertBool_iff.mp hrow'.1 with hflag' | hflag'
    · exact .inl (hashBytes_eq_nil h.tail hflag')
    · rw [hflag', one_mul, sub_eq_zero] at hfall
      rw [hflag', ← hfall, one_mul, one_mul, sub_eq_zero] at hfull
      exact .inr (length_absorbed_eq hrow hfull.symm)

/-- The bytes are sent keyed by their positions. -/
theorem selected_hashBytes (h : Linked (c :: rest)) :
    selected .send .programImage (programHashLookups (c :: rest)) =
      (hashBytes (c :: rest)).mapIdx fun j v => [c.baseAddr + (j : F), v] := by
  induction rest generalizing c with
  | nil =>
    obtain ⟨next, hrow⟩ := h.evalRow
    simp only [programHashLookups, hashBytes, List.flatMap_cons, List.flatMap_nil, List.append_nil]
    exact selected_programImage hrow
  | cons c' rest ih =>
    obtain ⟨hrow, -, -, hbase, -⟩ := h.step
    have ih := ih h.tail
    rw [programHashLookups] at ih ⊢
    rw [List.flatMap_cons, selected_append, ih, selected_programImage hrow,
      hashBytes_cons c, List.mapIdx_append]
    congr 1
    rcases hashBytes_nil_or_full h with hnil | hfull
    · rw [hnil]
      rfl
    · rw [hfull, hbase]
      congr 1
      funext j v
      rw [Nat.cast_add, Nat.cast_ofNat, add_assoc, add_comm 24]

theorem selected_hash_indexed {rows : List (ProgramHashColumns F)} {pub : PublicValues F}
    (h : programHashEval rows pub) : selected .send .programImage (programHashLookups rows) =
      (hashBytes rows).mapIdx fun j v => [(j : F), v] := by
  cases rows with
  | nil => rfl
  | cons c rest =>
    have hbase : c.baseAddr = 0 := (h.2.1 c rfl).1
    rw [selected_hashBytes (.of_eval h), hbase]
    simp only [zero_add]

/-- The accumulator of the last row counts the bytes. -/
theorem cumActive_last (h : Linked (c :: rest)) {last : ProgramHashColumns F}
    (hlast : last ∈ (c :: rest).getLast?) :
    last.cumActive + c.rowSum = c.cumActive + ((hashBytes (c :: rest)).length : F) := by
  induction rest generalizing c with
  | nil =>
    obtain ⟨next, hrow⟩ := h.evalRow
    obtain rfl : c = last := Option.some.inj hlast
    rw [rowSum_eq hrow, hashBytes, List.flatMap_singleton]
  | cons c' rest ih =>
    obtain ⟨hrow, -, -, -, hcum⟩ := h.step
    have ih := ih h.tail hlast
    rw [hashBytes_cons, List.length_append, Nat.cast_add, ← rowSum_eq hrow]
    linear_combination ih + hcum

end Chain

section Digest

theorem permIn_eq {c next : ProgramHashColumns F} (hrow : c.evalRow next) (hflag : c.flag = 1) :
    c.permIn = absorb next.state c.bytes := by
  funext i
  have := hrow.2.2.2.2.2.2.2.1 i
  rwa [hflag, one_mul, sub_eq_zero] at this

theorem state_eq_permOut {c next : ProgramHashColumns F} (hrow : c.evalRow next)
    (hflag : c.flag = 1) : c.state = c.permOut := by
  funext i
  have := hrow.2.2.2.2.2.2.2.2 i
  rwa [hflag, one_mul, sub_eq_zero] at this

variable (P : Poseidon2 F)

theorem rows_drop {program : List Byte} (h : program ≠ []) :
    (program.length + 23) / 24 = ((program.drop 24).length + 23) / 24 + 1 := by
  have hpos := List.length_pos_of_ne_nil h
  rw [List.length_drop]
  omega

theorem chunk_drop (program : List Byte) (row : ℕ) :
    chunk (F := F) program ((row + 1) * 24) = chunk (program.drop 24) (row * 24) := by
  funext i
  rw [chunk, chunk, List.getElem?_drop]
  congr 2
  omega

/-- The head chunk of a program is absorbed last. -/
theorem sponge_step {program : List Byte} (h : program ≠ []) :
    P.sponge program =
      P.permute (absorb (P.sponge (program.drop 24)) (chunk program 0)) := by
  rw [Poseidon2.sponge, rows_drop h, List.range_succ_eq_map, List.reverse_cons, List.foldl_append,
    ← List.map_reverse, List.foldl_map]
  simp only [Nat.succ_eq_add_one, chunk_drop, List.foldl_cons, List.foldl_nil, Nat.zero_mul]
  rfl

variable [DecidableEq F] {P} {c : ProgramHashColumns F} {rest : List (ProgramHashColumns F)}

theorem state_of_padding (h : Linked (c :: rest)) (hflag : c.flag = 0) {bytes : List Byte}
    (hbytes : hashBytes (c :: rest) = bytes.map fun b => (b.toNat : F)) :
    c.state = P.sponge bytes := by
  obtain ⟨next, hrow⟩ := h.evalRow
  rw [hashBytes_eq_nil h hflag] at hbytes
  rw [List.map_eq_nil_iff.mp hbytes.symm]
  funext i
  show c.state i = 0
  simpa [hflag] using hrow.2.2.2.2.2.2.1 i

/-- The chunk a row absorbs is the head chunk of the bytes from that row on. -/
theorem bytes_eq_chunk {next : ProgramHashColumns F} (hrow : c.evalRow next) {own below : List Byte}
    (hown : absorbed c = own.map fun b => (b.toNat : F))
    (hfull : below = [] ∨ (absorbed c).length = 24) : c.bytes = chunk (own ++ below) 0 := by
  funext i
  have hsame : (own ++ below)[(i : ℕ)]? = own[(i : ℕ)]? := by
    rcases hfull with rfl | hfull
    · rw [List.append_nil]
    · rw [hown, List.length_map] at hfull
      exact List.getElem?_append_left (i.isLt.trans_eq hfull.symm)
  rw [bytes_eq_getD hrow, hown, List.getElem?_map, chunk, Nat.zero_add, hsame]
  cases own[(i : ℕ)]? <;> rfl

/-- A real row absorbs the head chunk of the bytes from it on, and the rows below it the rest. -/
theorem head_chunk {c' : ProgramHashColumns F} (h : Linked (c :: c' :: rest)) (hflag : c.flag = 1)
    {bytes : List Byte} (hbytes : hashBytes (c :: c' :: rest) = bytes.map fun b => (b.toNat : F)) :
    bytes ≠ [] ∧ c.bytes = chunk bytes 0 ∧
      hashBytes (c' :: rest) = (bytes.drop 24).map fun b => (b.toNat : F) := by
  obtain ⟨hrow, -⟩ := h.step
  rw [hashBytes_cons c] at hbytes
  obtain ⟨own, below, rfl, hown, hbelow⟩ := List.map_eq_append_iff.mp hbytes.symm
  have hfull : below = [] ∨ (absorbed c).length = 24 := by
    rcases hashBytes_nil_or_full h with hnil | hfull
    · exact .inl (List.map_eq_nil_iff.mp (hbelow.trans hnil))
    · exact .inr hfull
  have hne : own ≠ [] := by
    rintro rfl
    exact absorbed_ne_nil hrow hflag hown.symm
  have hlength : own.length = (absorbed c).length := by rw [← hown, List.length_map]
  have hdrop : (own ++ below).drop 24 = below := by
    rcases hfull with rfl | hfull
    · rw [List.append_nil]
      exact List.drop_eq_nil_of_le (hlength.trans_le length_absorbed_le)
    · exact List.drop_left' (hlength.trans hfull)
  refine ⟨List.append_ne_nil_of_left_ne_nil hne below, bytes_eq_chunk hrow hown.symm hfull, ?_⟩
  rw [hdrop, hbelow]

/-- The state of a row is the sponge over the bytes from that row on. -/
theorem state_eq_sponge (h : Linked (c :: rest))
    (hperm : ∀ r ∈ c :: rest, r.flag = 1 → r.permOut = P.permute r.permIn) {bytes : List Byte}
    (hbytes : hashBytes (c :: rest) = bytes.map fun b => (b.toNat : F)) :
    c.state = P.sponge bytes := by
  induction rest generalizing c bytes with
  | nil => exact state_of_padding h (h.last c rfl).1 hbytes
  | cons c' rest ih =>
    obtain ⟨hrow, -⟩ := h.step
    rcases assertBool_iff.mp hrow.1 with hflag | hflag
    · exact state_of_padding h hflag hbytes
    · obtain ⟨hne, hchunk, hbelow⟩ := head_chunk h hflag hbytes
      have ih := ih h.tail (fun r hr => hperm r (.tail _ hr)) hbelow
      rw [sponge_step P hne, ← ih, ← hchunk, ← permIn_eq hrow hflag, state_eq_permOut hrow hflag]
      exact hperm c List.mem_cons_self hflag

end Digest

structure HashTables (F : Type*) where
  program : List (ProgramColumns F)
  programHash : List (ProgramHashColumns F)
  publicValues : PublicValues F
  poseidon2Chip : List (Poseidon2Columns F)
  bytes : ℕ → F
  /-- The other senders of byte checks. -/
  rows : List (InstrRow F)

namespace HashTables

def lookups (T : HashTables F) : List (Interaction F) :=
  programLookups T.program ++ programHashLookups T.programHash ++
    T.poseidon2Chip.flatMap Poseidon2Columns.lookups ++ bytesAir.lookups T.bytes ++
      T.rows.flatMap InstrRow.lookups

def Eval (P : Poseidon2 F) (T : HashTables F) : Prop :=
  programEval T.program ∧ programHashEval T.programHash T.publicValues ∧
    (∀ c ∈ T.poseidon2Chip, c.eval P) ∧ ∀ r ∈ T.rows, r.eval

end HashTables

def hashBuses : List BusName := [.programImage, .bytes, .poseidon2Perm]

section Tables

theorem hash_mem_lookups {rows : List (ProgramHashColumns F)} {x : Interaction F} :
    x ∈ programHashLookups rows ↔ ∃ c ∈ rows,
      (∃ i : Fin 24, x = send .programImage [c.baseAddr + ((i : ℕ) : F), c.bytes i]
        (c.isActive i)) ∨
      (∃ i : Fin 24, x = send .bytes [c.bytes i] (c.isActive i)) ∨
      x = send .poseidon2Perm (List.ofFn c.permIn ++ List.ofFn c.permOut) c.flag := by
  simp only [programHashLookups, List.mem_flatMap, ProgramHashColumns.lookups, List.mem_append,
    List.mem_ofFn, List.mem_singleton, or_assoc, eq_comm]

theorem hash_direction {rows : List (ProgramHashColumns F)} {x : Interaction F}
    (hx : x ∈ programHashLookups rows) : x.direction = .send := by
  obtain ⟨c, -, ⟨i, rfl⟩ | ⟨i, rfl⟩ | rfl⟩ := hash_mem_lookups.mp hx
  all_goals rfl

theorem hash_boolean {rows : List (ProgramHashColumns F)} (h : ∀ c ∈ rows, ∃ next, c.evalRow next)
    {x : Interaction F} (hx : x ∈ programHashLookups rows) :
    x.multiplicity = 0 ∨ x.multiplicity = 1 := by
  obtain ⟨c, hc, hx⟩ := hash_mem_lookups.mp hx
  obtain ⟨next, hrow⟩ := h c hc
  rcases hx with ⟨i, rfl⟩ | ⟨i, rfl⟩ | rfl
  · exact assertBool_iff.mp (hrow.2.1 i)
  · exact assertBool_iff.mp (hrow.2.1 i)
  · exact assertBool_iff.mp hrow.1

variable {P : Poseidon2 F} {T : HashTables F}

namespace HashTables

theorem evalRow (h : T.Eval P) : ∀ c ∈ T.programHash, ∃ next, c.evalRow next :=
  fun _ hc => exists_next_of_zip_rotate h.2.1.1 hc

theorem mem_lookups {x : Interaction F} : x ∈ T.lookups ↔ x ∈ programLookups T.program ∨
    x ∈ programHashLookups T.programHash ∨
    (∃ c ∈ T.poseidon2Chip, x = receive .poseidon2Perm
      (List.ofFn c.input ++ List.ofFn c.output) (if c.isReal then 1 else 0)) ∨
    x ∈ bytesAir.lookups T.bytes ∨ ∃ r ∈ T.rows, x ∈ r.ports.lookups := by
  simp [lookups, Poseidon2Columns.lookups, InstrRow.lookups]

theorem boolean_of_send (h : T.Eval P) {x : Interaction F} (hx : x ∈ T.lookups)
    (hbus : x.bus ∈ hashBuses) (hsend : x.direction = .send) :
    x.multiplicity = 0 ∨ x.multiplicity = 1 := by
  rcases mem_lookups.mp hx with hx | hx | ⟨c, -, rfl⟩ | hx | ⟨r, hr, hx⟩
  · obtain ⟨c, -, rfl | rfl⟩ := program_mem_lookups.mp hx <;> cases hsend
  · exact hash_boolean (evalRow h) hx
  · cases hsend
  · obtain ⟨row, -, -, hreceive, -⟩ := Table.mem_lookups hx
    exact absurd (hsend.symm.trans hreceive) (by decide)
  · rw [multiplicity_eq_isDummy hx (ne_of_mem_of_not_mem hbus (by decide))]
    exact InstrRow.isDummy_of_eval (h.2.2.2 r hr)

variable [DecidableEq F]

theorem length_selected_hash (bus : BusName) (rows : List (ProgramHashColumns F)) :
    (selected .send bus (programHashLookups rows)).length ≤ 24 * rows.length := by
  induction rows with
  | nil => simp [programHashLookups]
  | cons c rows ih =>
    have hslots := length_absorbed_le (c := c)
    rw [length_absorbed] at hslots
    have hrow : (selected .send bus c.lookups).length ≤ 24 := by
      rw [selected_hash_send]
      cases bus <;> simp [hslots]
      split_ifs <;> simp
    rw [programHashLookups] at ih ⊢
    rw [List.flatMap_cons, selected_append, List.length_append, List.length_cons]
    omega

theorem selected_send_eq (bus : BusName) : selected .send bus T.lookups =
    selected .send bus (programHashLookups T.programHash) ++
      selected .send bus (T.rows.flatMap InstrRow.lookups) := by
  have hprogram : selected .send bus (programLookups T.program) = [] := by
    apply selected_eq_nil_of_direction
    intro x hx
    obtain ⟨c, -, rfl | rfl⟩ := program_mem_lookups.mp hx <;> nofun
  have hchip : selected .send bus (T.poseidon2Chip.flatMap Poseidon2Columns.lookups) = [] := by
    apply selected_eq_nil_of_direction
    intro x hx
    obtain ⟨c, -, hx⟩ := List.mem_flatMap.mp hx
    rw [List.mem_singleton.mp hx]
    nofun
  have hbytes : selected .send bus (bytesAir.lookups T.bytes) = [] := by
    apply selected_eq_nil_of_direction
    intro x hx
    obtain ⟨row, -, -, hreceive, -⟩ := Table.mem_lookups hx
    rw [hreceive]
    nofun
  rw [lookups, selected_append, selected_append, selected_append, selected_append, hprogram, hchip,
    hbytes, List.nil_append, List.append_nil, List.append_nil]

theorem selected_receive_eq {bus : BusName} (hbus : bus ≠ .trace) :
    selected .receive bus T.lookups = selected .receive bus (programLookups T.program) ++
      selected .receive bus (T.poseidon2Chip.flatMap Poseidon2Columns.lookups) ++
        selected .receive bus (bytesAir.lookups T.bytes) := by
  have hhash : selected .receive bus (programHashLookups T.programHash) = [] := by
    apply selected_eq_nil_of_direction
    intro x hx
    rw [hash_direction hx]
    nofun
  have hrows : selected .receive bus (T.rows.flatMap InstrRow.lookups) = [] := by
    apply List.eq_nil_iff_forall_not_mem.mpr
    intro values hvalues
    obtain ⟨x, hx, hxbus, hreceive, -⟩ := mem_selected.mp hvalues
    obtain ⟨r, -, hx⟩ := List.mem_flatMap.mp hx
    exact hbus (hxbus.symm.trans (bus_eq_trace_of_receive hx hreceive))
  rw [lookups, selected_append, selected_append, selected_append, selected_append, hhash, hrows,
    List.append_nil, List.append_nil]

theorem selected_chip_eq_nil {bus : BusName} (hbus : bus ≠ .poseidon2Perm) :
    selected .receive bus (T.poseidon2Chip.flatMap Poseidon2Columns.lookups) = [] := by
  apply selected_eq_nil
  intro x hx
  obtain ⟨c, -, hx⟩ := List.mem_flatMap.mp hx
  rw [List.mem_singleton.mp hx]
  exact hbus.symm

theorem selected_table_eq_nil {bus : BusName} (hbus : bus ≠ .bytes) :
    selected .receive bus (bytesAir.lookups T.bytes) = [] := by
  apply selected_eq_nil
  intro x hx
  obtain ⟨row, -, htable, -⟩ := Table.mem_lookups hx
  rw [htable]
  exact hbus.symm

theorem length_selected_send (bus : BusName) : (selected .send bus T.lookups).length ≤
    24 * T.programHash.length + (T.rows.flatMap InstrRow.lookups).length := by
  rw [selected_send_eq, List.length_append]
  exact Nat.add_le_add (length_selected_hash bus _) (length_selected_le _)

theorem sent_of_hash {bus : BusName} {c : ProgramHashColumns F} (hc : c ∈ T.programHash)
    {values : List F} (h : values ∈ selected .send bus c.lookups) :
    values ∈ selected .send bus T.lookups := by
  rw [selected_send_eq, programHashLookups, selected_flatMap]
  exact List.mem_append_left _ (List.mem_flatMap.mpr ⟨c, hc, h⟩)

variable [CharP F modulus]

/-- Something sent by a hash row is received by another table. -/
theorem exists_receive_of_hash (h : T.Eval P)
    (hcount : 24 * T.programHash.length + (T.rows.flatMap InstrRow.lookups).length < modulus)
    (hbalanced : ∀ bus ∈ hashBuses, ∀ values, net T.lookups bus values = 0) {bus : BusName}
    (hbus : bus ∈ hashBuses) {values : List F} (hsent : values ∈ selected .send bus T.lookups) :
    ∃ x ∈ T.lookups, x.bus = bus ∧ x.direction = .receive ∧ x.values = values ∧
      x.multiplicity ≠ 0 :=
  exists_receive (p := modulus) (fun _ hx hxbus hsend _ => boolean_of_send h hx (by rwa [hxbus]) hsend)
    ((length_selected_send bus).trans_lt hcount) (hbalanced bus hbus values) hsent

/-- What a row absorbs are bytes. -/
theorem exists_byte (h : T.Eval P)
    (hcount : 24 * T.programHash.length + (T.rows.flatMap InstrRow.lookups).length < modulus)
    (hbalanced : ∀ bus ∈ hashBuses, ∀ values, net T.lookups bus values = 0) :
    ∀ v ∈ hashBytes T.programHash, ∃ b : Byte, v = (b.toNat : F) := by
  intro v hv
  obtain ⟨c, hc, hv⟩ := List.mem_flatMap.mp hv
  have hsent : [v] ∈ selected .send .bytes T.lookups :=
    sent_of_hash hc (by rw [selected_bytes]; exact List.mem_map_of_mem hv)
  obtain ⟨x, hx, hbus, hreceive, hvalues, -⟩ :=
    exists_receive_of_hash h hcount hbalanced (by decide) hsent
  rcases mem_lookups.mp hx with hx | hx | ⟨c, -, rfl⟩ | hx | ⟨r, -, hx⟩
  · obtain ⟨c, -, rfl | rfl⟩ := program_mem_lookups.mp hx <;> cases hbus
  · exact absurd (hreceive.symm.trans (hash_direction hx)) (by decide)
  · cases hbus
  · obtain ⟨row, hrow, -, -, hvalue⟩ := Table.mem_lookups hx
    obtain ⟨b, hb, rfl⟩ := mem_bytesAir.mp hrow
    refine ⟨BitVec.ofNat 8 b, ?_⟩
    rw [BitVec.toNat_ofNat, Nat.mod_eq_of_lt hb]
    exact List.singleton_inj.mp (hvalues.symm.trans hvalue)
  · exact absurd (hbus.symm.trans (bus_eq_trace_of_receive hx hreceive)) (by decide)

/-- The permutation claimed by a real row is checked by the chip. -/
theorem permOut_eq (h : T.Eval P)
    (hcount : 24 * T.programHash.length + (T.rows.flatMap InstrRow.lookups).length < modulus)
    (hbalanced : ∀ bus ∈ hashBuses, ∀ values, net T.lookups bus values = 0) :
    ∀ c ∈ T.programHash, c.flag = 1 → c.permOut = P.permute c.permIn := by
  intro c hc hflag
  have hsent : List.ofFn c.permIn ++ List.ofFn c.permOut ∈
      selected .send .poseidon2Perm T.lookups := by
    apply sent_of_hash hc
    rw [selected_poseidon2Perm, if_pos hflag]
    exact List.mem_cons_self
  obtain ⟨x, hx, hbus, hreceive, hvalues, -⟩ :=
    exists_receive_of_hash h hcount hbalanced (by decide) hsent
  rcases mem_lookups.mp hx with hx | hx | ⟨chip, hchip, rfl⟩ | hx | ⟨r, -, hx⟩
  · obtain ⟨c, -, rfl | rfl⟩ := program_mem_lookups.mp hx <;> cases hbus
  · exact absurd (hreceive.symm.trans (hash_direction hx)) (by decide)
  · obtain ⟨hin, hout⟩ := List.append_inj hvalues (by simp)
    rw [← List.ofFn_injective hin, ← List.ofFn_injective hout]
    exact h.2.2.1 chip hchip
  · obtain ⟨row, -, htable, -, -⟩ := Table.mem_lookups hx
    exact absurd (hbus.symm.trans htable) (by decide)
  · exact absurd (hbus.symm.trans (bus_eq_trace_of_receive hx hreceive)) (by decide)

/-- The ROM holds exactly the absorbed bytes. -/
theorem romBytes_eq (h : T.Eval P) (hprogram : T.program.length < modulus)
    (hcount : 24 * T.programHash.length + (T.rows.flatMap InstrRow.lookups).length < modulus)
    (hbalanced : ∀ bus ∈ hashBuses, ∀ values, net T.lookups bus values = 0) :
    romBytes T.program = hashBytes T.programHash := by
  have hsend : selected .send .programImage T.lookups =
      (hashBytes T.programHash).mapIdx fun j v => [(j : F), v] := by
    have hrows : selected .send .programImage (T.rows.flatMap InstrRow.lookups) = [] := by
      apply selected_eq_nil
      intro x hx
      obtain ⟨r, -, hx⟩ := List.mem_flatMap.mp hx
      exact ne_of_mem_of_not_mem (bus_mem (regular r) hx) (by decide)
    rw [selected_send_eq, hrows, List.append_nil, selected_hash_indexed h.2.1]
  have hreceive : selected .receive .programImage T.lookups =
      (romBytes T.program).mapIdx fun j v => [(j : F), v] := by
    rw [selected_receive_eq (by decide), selected_chip_eq_nil (by decide),
      selected_table_eq_nil (by decide), List.append_nil, List.append_nil, selected_romBytes h.1]
  have hbool : ∀ x ∈ T.lookups, x.bus = .programImage →
      x.multiplicity = 0 ∨ x.multiplicity = 1 := by
    intro x hx hbus
    rcases mem_lookups.mp hx with hx | hx | ⟨c, -, rfl⟩ | hx | ⟨r, -, hx⟩
    · obtain ⟨c, hc, rfl | rfl⟩ := program_mem_lookups.mp hx
      · cases hbus
      · exact assertBool_iff.mp (h.1.1 c hc).2.2.1
    · exact hash_boolean (evalRow h) hx
    · cases hbus
    · obtain ⟨row, -, htable, -⟩ := Table.mem_lookups hx
      exact absurd (hbus.symm.trans htable) (by decide)
    · exact absurd (hbus ▸ bus_mem (regular r) hx) (by decide)
  have hlengthHash : (hashBytes T.programHash).length < modulus := by
    have hle := (T.length_selected_send .programImage).trans_lt hcount
    rwa [hsend, List.length_mapIdx] at hle
  have hlengthRom : (romBytes T.program).length < modulus := by
    rw [romBytes, List.length_map]
    exact (List.length_filter_le _ _).trans_lt hprogram
  have hperm := perm_of_balanced (p := modulus) hbool (by simpa [hsend] using hlengthHash)
    (by simpa [hreceive] using hlengthRom) (hbalanced _ (by decide))
  rw [hsend, hreceive] at hperm
  exact (eq_of_perm_indexed (p := modulus) hlengthHash hperm).symm

end HashTables

end Tables

/-- The real ROM rows hold, in order, the bytes the hash table absorbs, and the public values are
their number and their digest. -/
theorem program_hash_binding (P : Poseidon2 Felt) (T : HashTables Felt) (heval : T.Eval P)
    (hheight : T.programHash ≠ []) (hprogram : T.program.length < modulus)
    (hcount : 24 * T.programHash.length + (T.rows.flatMap InstrRow.lookups).length < modulus)
    (hbalanced : ∀ bus ∈ hashBuses, ∀ values, net T.lookups bus values = 0) :
    ∃ bytes : List Byte, romBytes T.program = bytes.map (fun b => (b.toNat : Felt)) ∧
      hashBytes T.programHash = bytes.map (fun b => (b.toNat : Felt)) ∧
      T.publicValues.length = (bytes.length : Felt) ∧
      T.publicValues.digest = (computeProgramDigest P bytes).1 ∧
      T.publicValues.length = ((computeProgramDigest P bytes).2.toNat : Felt) := by
  obtain ⟨bytes, hbytes⟩ : ∃ bytes : List Byte,
      hashBytes T.programHash = bytes.map fun b => (b.toNat : Felt) := by
    have hrange : hashBytes T.programHash ∈ Set.range (List.map fun b : Byte => (b.toNat : Felt)) := by
      rw [Set.range_list_map]
      intro v hv
      obtain ⟨b, rfl⟩ := T.exists_byte heval hcount hbalanced v hv
      exact ⟨b, rfl⟩
    obtain ⟨bytes, hbytes⟩ := hrange
    exact ⟨bytes, hbytes.symm⟩
  obtain ⟨c, rest, hrows⟩ := List.exists_cons_of_ne_nil hheight
  obtain ⟨-, hfirst, hlast, -⟩ := heval.2.1
  have hlink : Linked (c :: rest) := hrows ▸ .of_eval heval.2.1
  have hperm := T.permOut_eq heval hcount hbalanced
  rw [hrows] at hfirst hlast hperm
  obtain ⟨-, hcum, hdigest⟩ := hfirst c rfl
  have hbelow : bytes.length < modulus := by
    have hrom := T.romBytes_eq heval hprogram hcount hbalanced
    rw [← List.length_map (fun b : Byte => (b.toNat : Felt)), ← hbytes, ← hrom, romBytes,
      List.length_map]
    exact (List.length_filter_le _ _).trans_lt hprogram
  have hlength : T.publicValues.length = (bytes.length : Felt) := by
    have hmem := List.getLast?_eq_some_getLast (List.cons_ne_nil c rest)
    have hsum := cumActive_last hlink hmem
    rw [(hlast _ hmem).2, hcum, (congrArg hashBytes hrows).symm.trans hbytes,
      List.length_map] at hsum
    linear_combination hsum
  refine ⟨bytes, (T.romBytes_eq heval hprogram hcount hbalanced).trans hbytes, hbytes, hlength,
    ?_, ?_⟩
  · funext i
    rw [← hdigest i, state_eq_sponge hlink hperm (hrows ▸ hbytes)]
    rfl
  · rw [hlength, computeProgramDigest, BitVec.toNat_ofNat, Nat.mod_eq_of_lt]
    exact hbelow.trans (by norm_num)

section Addi

/-- The bytes of `addi x10, x0, 6`. -/
def addiBytes : List Byte := [0x13, 0x05, 0x60, 0x00]

def addiRom : List (ProgramColumns Felt) :=
  List.ofFn fun i : Fin 4 => ⟨registerAddress ((i : ℕ) : Felt), ![0x13, 0x05, 0x60, 0x00] i, 0, 0, 1⟩

/-- The row that absorbs them. -/
def addiHashRow (P : Poseidon2 Felt) : ProgramHashColumns Felt where
  state := P.permute (absorb 0 (chunk addiBytes 0))
  bytes := chunk addiBytes 0
  baseAddr := 0
  isActive := fun i => if i < 4 then 1 else 0
  flag := 1
  cumActive := 4
  permIn := absorb 0 (chunk addiBytes 0)
  permOut := P.permute (absorb 0 (chunk addiBytes 0))

def hashPadding (k : Felt) : ProgramHashColumns Felt := ⟨0, 0, 24 * k, 0, 0, 4, 0, 0⟩

def addiByteChecks (b : ℕ) : Felt := if b ∈ [0x13, 0x05, 0x60, 0x00] then 1 else 0

/-- The tables of that program, for any permutation. -/
def addiTables (P : Poseidon2 Felt) : HashTables Felt where
  program := addiRom
  programHash := addiHashRow P :: [hashPadding 1, hashPadding 2, hashPadding 3]
  publicValues := ⟨fun i => P.permute (absorb 0 (chunk addiBytes 0)) (i.castLE rate_le), 4⟩
  poseidon2Chip := ⟨absorb 0 (chunk addiBytes 0), P.permute (absorb 0 (chunk addiBytes 0)), true⟩ ::
    List.replicate 3 ⟨0, P.permute 0, false⟩
  bytes := addiByteChecks
  rows := []

theorem hashPadding_evalRow (k : Felt) (next : ProgramHashColumns Felt) :
    (hashPadding k).evalRow next := by
  simp [hashPadding, ProgramHashColumns.evalRow, AssertBool]

theorem addiHashRow_evalRow (P : Poseidon2 Felt) (k : Felt) :
    (addiHashRow P).evalRow (hashPadding k) := by
  refine ⟨?_, ?_, ?_, ?_, ?_, ?_, ?_, ?_, ?_⟩
  · simp [addiHashRow, AssertBool]
  · intro i
    simp only [addiHashRow, AssertBool]
    split_ifs <;> simp
  · show ∀ i : Fin 23, (if i.succ < 4 then (1 : Felt) else 0) *
      (1 - if i.castSucc < 4 then 1 else 0) = 0
    decide
  · simp [addiHashRow]
  · rfl
  · show ∀ i : Fin 24, (1 - if i < 4 then (1 : Felt) else 0) * chunk addiBytes 0 i = 0
    decide
  · simp [addiHashRow]
  · intro i
    exact (one_mul _).trans (sub_self _)
  · intro i
    exact (one_mul _).trans (sub_self _)

theorem addiTables_eval (P : Poseidon2 Felt) : (addiTables P).Eval P := by
  refine ⟨?_, ⟨?_, ?_, ?_, ?_⟩, ?_, ?_⟩
  · show programEval addiRom
    decide
  · intro q hq
    have hq : q = (addiHashRow P, hashPadding 1) ∨ q = (hashPadding 1, hashPadding 2) ∨
        q = (hashPadding 2, hashPadding 3) ∨ q = (hashPadding 3, addiHashRow P) := by
      simpa [addiTables] using hq
    rcases hq with rfl | rfl | rfl | rfl
    · exact addiHashRow_evalRow P 1
    all_goals exact hashPadding_evalRow _ _
  · intro c hc
    obtain rfl : addiHashRow P = c := Option.some.inj hc
    refine ⟨rfl, ?_, fun _ => rfl⟩
    show (4 : Felt) = ∑ i : Fin 24, if i < 4 then 1 else 0
    decide
  · intro c hc
    obtain rfl : hashPadding 3 = c := Option.some.inj hc
    exact ⟨rfl, rfl⟩
  · have hfirst : (addiHashRow P).evalTransition (hashPadding 1) := by
      simp [addiHashRow, hashPadding, ProgramHashColumns.evalTransition,
        ProgramHashColumns.rowSum]
    have hpadding : ∀ k : Felt, (hashPadding k).evalTransition (hashPadding (k + 1)) := by
      intro k
      simp [hashPadding, ProgramHashColumns.evalTransition, ProgramHashColumns.rowSum, mul_add]
    exact .cons_cons hfirst (.cons_cons (hpadding 1) (.cons_cons (hpadding 2) (.singleton _)))
  · intro c hc
    rcases List.mem_cons.mp hc with rfl | hc
    · rfl
    · rw [List.eq_of_mem_replicate hc]
      rfl
  · nofun

theorem selected_addiByteChecks : selected .receive .bytes (bytesAir.lookups addiByteChecks) =
    [[0x00], [0x05], [0x13], [0x60]] := by
  decide +kernel

theorem addiTables_boolean (P : Poseidon2 Felt) :
    ∀ x ∈ (addiTables P).lookups, x.multiplicity = 0 ∨ x.multiplicity = 1 := by
  intro x hx
  rcases HashTables.mem_lookups.mp hx with hx | hx | ⟨c, -, rfl⟩ | hx | ⟨r, hr, -⟩
  · have hrom : ∀ x ∈ programLookups addiRom, x.multiplicity = 0 ∨ x.multiplicity = 1 := by
      decide
    exact hrom x hx
  · exact hash_boolean (HashTables.evalRow (addiTables_eval P)) hx
  · simp only [receive]
    split_ifs
    · exact .inr rfl
    · exact .inl rfl
  · obtain ⟨i, hi, rfl⟩ := List.mem_mapIdx.mp hx
    simp only [receive, addiTables, addiByteChecks]
    split_ifs
    · exact .inr rfl
    · exact .inl rfl
  · cases hr

theorem addiTables_balanced (P : Poseidon2 Felt) :
    ∀ bus ∈ hashBuses, ∀ values, net (addiTables P).lookups bus values = 0 := by
  intro bus hbus
  apply net_eq_zero_of_perm fun x hx _ => addiTables_boolean P x hx
  rw [HashTables.selected_send_eq, HashTables.selected_receive_eq (ne_of_mem_of_not_mem hbus
    (by decide))]
  simp only [hashBuses, List.mem_cons, List.not_mem_nil, or_false] at hbus
  rcases hbus with rfl | rfl | rfl
  · rw [HashTables.selected_chip_eq_nil (by decide), HashTables.selected_table_eq_nil (by decide)]
    exact .of_eq rfl
  · have hsend : selected .send .bytes (programHashLookups (addiTables P).programHash) ++
        selected .send .bytes ((addiTables P).rows.flatMap InstrRow.lookups) =
          [[0x13], [0x05], [0x60], [0x00]] := by
      simp only [addiTables, programHashLookups, List.flatMap_cons, selected_append,
        selected_bytes]
      rfl
    have hprogram : selected .receive .bytes (programLookups addiRom) = [] := by decide
    rw [hsend, HashTables.selected_chip_eq_nil (by decide), List.append_nil]
    dsimp only [addiTables]
    rw [hprogram, List.nil_append, selected_addiByteChecks]
    decide
  · rw [HashTables.selected_table_eq_nil (by decide)]
    exact .of_eq rfl

/-- One row of hash over the four bytes. The tables are accepted for every permutation; here every
layer is the identity and every constant zero. -/
theorem program_hash_binding_addi :
    let P : Poseidon2 Felt := ⟨id, id, 0, 0, 0⟩
    let T := addiTables P
    ∃ bytes : List Byte, romBytes T.program = bytes.map (fun b => (b.toNat : Felt)) ∧
      hashBytes T.programHash = bytes.map (fun b => (b.toNat : Felt)) ∧
      T.publicValues.length = (bytes.length : Felt) ∧
      T.publicValues.digest = (computeProgramDigest P bytes).1 ∧
      T.publicValues.length = ((computeProgramDigest P bytes).2.toNat : Felt) := by
  intro P T
  apply program_hash_binding P T
  · exact addiTables_eval P
  · exact List.cons_ne_nil _ _
  · show 4 < modulus
    norm_num
  · show 24 * 4 + 0 < modulus
    norm_num
  · exact addiTables_balanced P

end Addi

end Loquela.Soundness
