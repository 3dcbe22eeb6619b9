import FrozenScript.Proofs.Code.Height

/-!
# Generated units are well formed

`CodeUnit.WellFormed` gathers what the machine takes for granted of a unit. Every unit of a program
is well formed (`wellFormed_of_mem_programBodies`), whether the scoping rules accept the program or
not, and the stack is empty at every boundary of a statement (`blockBoundaries`).
-/

namespace FrozenScript

mutual
/-- The indices where the statements inside a statement begin and end. -/
def Stmt.boundaries (keepAsserts inLoop : Bool) : Stmt → (start : Nat) → List Nat
  | .branch _ condition body alternative, start =>
    let behind := start + condition.codeSize + 1
    blockBoundaries keepAsserts inLoop body behind ++
      alternative.boundaries keepAsserts inLoop (behind + blockSize keepAsserts inLoop body)
  | .loop _ condition body, start =>
    blockBoundaries keepAsserts true body (start + condition.codeSize + 1)
  | .expr .., _ | .assign .., _ | .define .., _ | .giveBack .., _ | .importModule .., _
  | .assert .., _ | .pass _, _ | .breakLoop _, _ | .continueLoop _, _ => []

/-- The indices where the statements of a block begin and end, with those inside them. -/
def blockBoundaries (keepAsserts inLoop : Bool) : List Stmt → (start : Nat) → List Nat
  | [], start => [start]
  | stmt :: rest, start =>
    start :: (stmt.boundaries keepAsserts inLoop start ++
      blockBoundaries keepAsserts inLoop rest (start + stmt.codeSize keepAsserts inLoop))

/-- The indices where the statements of an alternative begin and end. -/
def Alternative.boundaries (keepAsserts inLoop : Bool) : Alternative → (start : Nat) → List Nat
  | .nothing, _ => []
  | .elif condition body rest, start =>
    let behind := start + 1 + condition.codeSize + 1
    blockBoundaries keepAsserts inLoop body behind ++
      rest.boundaries keepAsserts inLoop (behind + blockSize keepAsserts inLoop body)
  | .otherwise body, start => blockBoundaries keepAsserts inLoop body (start + 1)
end

section

variable {height : Nat → Nat}

mutual
/-- The stack is empty at the boundaries inside a statement, if it is empty behind it. -/
theorem Stmt.flat_of_mem_boundaries (stmt : Stmt) {keepAsserts inLoop : Bool} {start stop pc : Nat}
    (hheights : Heights height start (stmt.heights keepAsserts inLoop))
    (hstop : start + stmt.codeSize keepAsserts inLoop = stop) (hend : height stop = 0)
    (hpc : pc ∈ stmt.boundaries keepAsserts inLoop start) : pc ≤ stop ∧ height pc = 0 := by
  cases stmt with
  | branch _ condition body alternative =>
      subst hstop
      simp only [Stmt.codeSize, ← Nat.add_assoc] at hend ⊢
      simp only [Stmt.heights] at hheights
      have hrest := (heights_append.mp hheights).2
      rw [condition.length_heights, heights_cons, heights_append, length_blockHeights] at hrest
      obtain ⟨-, hheightsBody, hheightsAlternative⟩ := hrest
      obtain ⟨hjumpOver, -⟩ := alternative.height_start hheightsAlternative rfl hend
      rcases List.mem_append.mp hpc with hbody | halternative
      · obtain ⟨hle, hflat⟩ := flat_of_mem_blockBoundaries body hheightsBody rfl hjumpOver hbody
        exact ⟨by omega, hflat⟩
      · exact alternative.flat_of_mem_boundaries hheightsAlternative rfl hend halternative
  | loop _ condition body =>
      subst hstop
      simp only [Stmt.codeSize, ← Nat.add_assoc] at hend ⊢
      have hrest := (heights_append.mp hheights).2
      rw [condition.length_heights, heights_cons, heights_append, length_blockHeights] at hrest
      obtain ⟨-, hheightsBody, hheightsBack⟩ := hrest
      obtain ⟨hle, hflat⟩ :=
        flat_of_mem_blockBoundaries body hheightsBody rfl hheightsBack.head hpc
      exact ⟨by omega, hflat⟩
  | _ => exact nomatch hpc

theorem flat_of_mem_blockBoundaries (block : List Stmt) {keepAsserts inLoop : Bool}
    {start stop pc : Nat} (hheights : Heights height start (blockHeights keepAsserts inLoop block))
    (hstop : start + blockSize keepAsserts inLoop block = stop) (hend : height stop = 0)
    (hpc : pc ∈ blockBoundaries keepAsserts inLoop block start) : pc ≤ stop ∧ height pc = 0 := by
  subst hstop
  cases block with
  | nil =>
      obtain rfl := List.mem_singleton.mp hpc
      exact ⟨Nat.le_refl _, hend⟩
  | cons stmt rest =>
      have hstart := block_height_start _ hheights hend
      rw [blockHeights, heights_append, stmt.length_heights] at hheights
      rw [blockSize, ← Nat.add_assoc] at hend ⊢
      have hmiddle := block_height_start rest hheights.2 hend
      rcases List.mem_cons.mp hpc with rfl | hpc
      · exact ⟨by omega, hstart⟩
      rcases List.mem_append.mp hpc with hstmt | hrest
      · obtain ⟨hle, hflat⟩ := stmt.flat_of_mem_boundaries hheights.1 rfl hmiddle hstmt
        exact ⟨by omega, hflat⟩
      · exact flat_of_mem_blockBoundaries rest hheights.2 rfl hend hrest

theorem Alternative.flat_of_mem_boundaries (alternative : Alternative) {keepAsserts inLoop : Bool}
    {start stop pc : Nat} (hheights : Heights height start (alternative.heights keepAsserts inLoop))
    (hstop : start + jumpSize alternative.isPresent +
      alternative.codeSize keepAsserts inLoop = stop)
    (hend : height stop = 0) (hpc : pc ∈ alternative.boundaries keepAsserts inLoop start) :
    pc ≤ stop ∧ height pc = 0 := by
  cases alternative with
  | nothing => exact nomatch hpc
  | elif condition body rest =>
      have hpresent : jumpSize (Alternative.elif condition body rest).isPresent = 1 := rfl
      rw [hpresent] at hstop
      have hbehind := (heights_append.mp (heights_cons.mp hheights).2).2
      rw [condition.length_heights, heights_cons, heights_append, length_blockHeights] at hbehind
      obtain ⟨-, hheightsBody, hheightsRest⟩ := hbehind
      have hlast : start + 1 + condition.codeSize + 1 + blockSize keepAsserts inLoop body +
          jumpSize rest.isPresent + rest.codeSize keepAsserts inLoop = stop := by
        rw [← hstop, Alternative.codeSize]
        omega
      obtain ⟨hjumpOver, -⟩ := rest.height_start hheightsRest hlast hend
      rcases List.mem_append.mp hpc with hbody | hrest
      · obtain ⟨hle, hflat⟩ := flat_of_mem_blockBoundaries body hheightsBody rfl hjumpOver hbody
        exact ⟨by omega, hflat⟩
      · exact rest.flat_of_mem_boundaries hheightsRest hlast hend hrest
  | otherwise body =>
      exact flat_of_mem_blockBoundaries body (heights_cons.mp hheights).2 hstop hend hpc
end

end

/-- All instructions of a unit fit some heights of the stack, and the first one the empty stack. -/
structure CodeUnit.FlowsBy (unit : CodeUnit) (height : Nat → Nat) : Prop where
  start : 0 < unit.code.size
  zero : height 0 = 0
  flows : ∀ pc (instr : Instr), unit.code[pc]? = some instr → instr.Flows unit height pc

/-- What the machine takes for granted of a unit, with the boundaries of its statements: every
instruction has a line, and there are heights of the stack that all instructions fit. The boundaries
are indices of instructions, and the stack is empty there. -/
structure CodeUnit.WellFormed (unit : CodeUnit) (boundaries : List Nat) : Prop where
  lines : unit.lines.size = unit.code.size
  flows : ∃ height : Nat → Nat, unit.FlowsBy height ∧
    ∀ pc ∈ boundaries, pc < unit.code.size ∧ height pc = 0

/-- The code of a body is well formed. -/
theorem BodyCode.wellFormed {unit : CodeUnit} {around : Surroundings} {body : Block}
    (h : BodyCode unit around body) (hloop : around.loop = none) :
    unit.WellFormed (blockBoundaries around.keepAsserts false body 0) := by
  have hsize := h.size
  have hnone := h.nothing
  have hgiveBack := h.giveBack
  have hcode := h.block
  rw [hloop, Option.isSome_none] at hsize hnone hgiveBack
  -- The last two instructions load the constant that is given back and give it back.
  obtain ⟨height, hheights⟩ :=
    exists_heights (blockHeights around.keepAsserts false body ++ [0, 1])
  rw [heights_append, length_blockHeights] at hheights
  obtain ⟨hheightsBlock, hheightsLast⟩ := hheights
  have hend := hheightsLast.head
  have hzero := block_height_start body hheightsBlock hend
  rw [Nat.zero_add] at hend hheightsLast
  have hflat : around.Flat unit height := by
    refine ⟨hzero, fun loop hsome => ?_, fun loop hsome => ?_⟩
    all_goals
      rw [hloop] at hsome
      cases hsome
  have hblock : unit.FlowsOn height 0 (blockSize around.keepAsserts false body) := by
    refine block_flows body hcode ?_ ?_ hend (by omega) hflat
    · rw [hloop]
      exact hheightsBlock
    · rw [hloop]
      exact Nat.zero_add _
  obtain ⟨index, hload, hconst⟩ := hnone
  have hrefers : (Instr.loadConst index).RefersWithin unit := by
    refine ⟨_, hconst, fun inner hcode => ?_⟩
    cases hcode
  have hlast : unit.FlowsOn height (blockSize around.keepAsserts false body)
      (blockSize around.keepAsserts false body + 1 + 1) := by
    refine pair_flows hheightsLast hload hrefers rfl rfl hgiveBack fun hheight =>
      ⟨trivial, Nat.le_of_eq hheight.symm, fun edge hedge => ?_⟩
    cases hedge
  refine ⟨h.lines, height, ⟨by omega, hzero, fun pc instr hinstr => ?_⟩, fun pc hpc => ?_⟩
  · obtain ⟨hlt, -⟩ := Array.getElem?_eq_some_iff.mp hinstr
    obtain ⟨found, hfound, hflows⟩ :=
      FlowsOn.append hblock hlast pc (Nat.zero_le _) (by omega)
    obtain rfl := Option.some.inj (hinstr.symm.trans hfound)
    exact hflows
  · obtain ⟨hle, hflat⟩ :=
      flat_of_mem_blockBoundaries body hheightsBlock (Nat.zero_add _) hend hpc
    exact ⟨by omega, hflat⟩

/-- Every unit of a program is well formed. -/
theorem wellFormed_of_mem_programBodies {file : String} {optimize : UInt8} {program : Block}
    {unit : CodeUnit} {body : Block} (h : (unit, body) ∈ programBodies file optimize program)
    (hsmall : unit.Small) : unit.WellFormed (blockBoundaries (optimize == 0) false body 0) := by
  obtain ⟨line, name, params, rfl⟩ := exists_of_mem_programBodies h
  exact (bodyUnit_code hsmall).wellFormed rfl

end FrozenScript
