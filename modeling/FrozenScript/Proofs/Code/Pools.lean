import FrozenScript.Proofs.Code.Functions
import FrozenScript.Proofs.Code.Relabel

/-!
# Pools of constants and names

A unit keeps the constants and the names of its instructions in pools and refers to them by index.
`ConstantPool` and `NamePool` say that the pools hold nothing twice and nothing unused, in the order
of first use, and that every function is made by one instruction. Generation appends an instruction
together with what it refers to, so there are few ways for a draft to grow: `Draft.Kept` lists them,
and what they keep every construct keeps (`Stmt.generate_keeps`).

The main statement is `pools_in_first_use_order`.
-/

namespace FrozenScript

open Draft

/-! ## References -/

namespace Instr

/-- The index of the constant that an instruction refers to. -/
def constantIndex? : Instr → Option Nat
  | .loadConst index | .makeFunction index => some index.toNat
  | _ => none

/-- The index of the unit that an instruction makes a function of. -/
def functionIndex? : Instr → Option Nat
  | .makeFunction index => some index.toNat
  | _ => none

/-- The index of the name that an instruction refers to. -/
def nameIndex? : Instr → Option Nat
  | .loadName index | .storeName index | .loadMember index | .importName index => some index.toNat
  | _ => none

theorem constantIndex?_of_functionIndex? {instr : Instr} {index : Nat}
    (h : instr.functionIndex? = some index) : instr.constantIndex? = some index := by
  cases instr <;> simp_all [constantIndex?, functionIndex?]

end Instr

/-- Whether a constant is a unit. -/
def Constant.isUnit : Constant → Bool
  | .code _ => true
  | .none | .bool _ | .int _ | .text _ => false

/-- The indices are those below `count`, and the first uses of them are in order. -/
def UsedInOrder (indices : List Nat) (count : Nat) : Prop :=
  indices.eraseDups = List.range count

/-- The pool of names of some instructions: it has no name twice, and the names are used for the
first time in the order of the pool. -/
structure NamePool (code : List Instr) (names : List String) : Prop where
  distinct : names.Nodup
  used : UsedInOrder (code.filterMap Instr.nameIndex?) names.length

/-- The pool of constants of some instructions: it has no constant twice, units apart, the constants
are used for the first time in the order of the pool, and of every unit one instruction makes a
function. -/
structure ConstantPool (code : List Instr) (consts : List Constant) : Prop where
  distinct : consts.Pairwise fun a b => a.isUnit = false → b.isUnit = false → a ≠ b
  used : UsedInOrder (code.filterMap Instr.constantIndex?) consts.length
  made_once : ∀ index unit, consts[index]? = some (.code unit) →
    (code.filterMap Instr.functionIndex?).count index = 1

namespace UsedInOrder

variable {indices : List Nat} {count index : Nat}

theorem mem_iff (h : UsedInOrder indices count) : index ∈ indices ↔ index < count := by
  rw [← List.mem_eraseDups, h, List.mem_range]

/-- An index is used again. -/
theorem again (h : UsedInOrder indices count) (hindex : index < count) :
    UsedInOrder (indices ++ [index]) count := by
  have hmem : index ∈ indices := h.mem_iff.mpr hindex
  unfold UsedInOrder
  rw [List.eraseDups_append, h]
  simp [List.removeAll, hmem]

/-- The next index is used for the first time. -/
theorem next (h : UsedInOrder indices count) : UsedInOrder (indices ++ [count]) (count + 1) := by
  have hmem : count ∉ indices := fun hmem => Nat.lt_irrefl _ (h.mem_iff.mp hmem)
  unfold UsedInOrder
  rw [List.eraseDups_append, h, List.range_succ]
  simp [List.removeAll, hmem, List.eraseDups_cons]

end UsedInOrder

/-! ## One instruction -/

section

variable {code : List Instr} {names : List String} {consts : List Constant}

namespace NamePool

variable {instr : Instr}

/-- No name is used. -/
theorem skip (h : NamePool code names) (hinstr : instr.nameIndex? = none) :
    NamePool (code ++ [instr]) names where
  distinct := h.distinct
  used := by simpa [hinstr] using h.used

/-- A name that is there is used. -/
theorem again (h : NamePool code names) {index : Nat} (hinstr : instr.nameIndex? = some index)
    (hindex : index < names.length) : NamePool (code ++ [instr]) names where
  distinct := h.distinct
  used := by simpa [hinstr] using h.used.again hindex

/-- A name is added and used. -/
theorem next (h : NamePool code names) {name : String}
    (hinstr : instr.nameIndex? = some names.length) (hname : name ∉ names) :
    NamePool (code ++ [instr]) (names ++ [name]) where
  distinct := by
    refine List.nodup_append.mpr ⟨h.distinct, List.pairwise_singleton _ _, ?_⟩
    intro other hother added hadded heq
    rw [List.mem_singleton] at hadded
    exact hname (hadded ▸ heq ▸ hother)
  used := by simpa [hinstr] using h.used.next

end NamePool

namespace ConstantPool

variable {instr : Instr}

/-- No constant is used. -/
theorem skip (h : ConstantPool code consts) (hinstr : instr.constantIndex? = none) :
    ConstantPool (code ++ [instr]) consts := by
  have hfunction : instr.functionIndex? = none := by
    cases hindex : instr.functionIndex? with
    | none => rfl
    | some index => simp [Instr.constantIndex?_of_functionIndex? hindex] at hinstr
  refine ⟨h.distinct, ?_, ?_⟩
  · simpa [hinstr] using h.used
  · simpa [hfunction] using h.made_once

/-- A constant that is there is loaded. -/
theorem again (h : ConstantPool code consts) {index : Nat}
    (hinstr : instr.constantIndex? = some index) (hfunction : instr.functionIndex? = none)
    (hindex : index < consts.length) : ConstantPool (code ++ [instr]) consts where
  distinct := h.distinct
  used := by simpa [hinstr] using h.used.again hindex
  made_once := by simpa [hfunction] using h.made_once

/-- A constant that is no unit is added and loaded. -/
theorem next (h : ConstantPool code consts) {value : Constant}
    (hinstr : instr.constantIndex? = some consts.length) (hfunction : instr.functionIndex? = none)
    (hunit : value.isUnit = false) (hvalue : value ∉ consts) :
    ConstantPool (code ++ [instr]) (consts ++ [value]) where
  distinct := by
    refine List.pairwise_append.mpr ⟨h.distinct, List.pairwise_singleton _ _, ?_⟩
    intro other hother added hadded _ _ heq
    rw [List.mem_singleton] at hadded
    exact hvalue (hadded ▸ heq ▸ hother)
  used := by simpa [hinstr] using h.used.next
  made_once := by
    intro index unit hindex
    have hold : consts[index]? = some (.code unit) := by
      rw [List.getElem?_append] at hindex
      split at hindex
      · exact hindex
      · have hadded := List.mem_singleton.mp (List.mem_of_getElem? hindex)
        simp [← hadded, Constant.isUnit] at hunit
    simpa [hfunction] using h.made_once index unit hold

/-- No function was made of a constant that is not there. -/
theorem count_length (h : ConstantPool code consts) :
    (code.filterMap Instr.functionIndex?).count consts.length = 0 := by
  rw [List.count_eq_zero]
  intro hmem
  obtain ⟨instr, hinstr, hfunction⟩ := List.mem_filterMap.mp hmem
  have hused : consts.length ∈ code.filterMap Instr.constantIndex? :=
    List.mem_filterMap.mpr ⟨instr, hinstr, Instr.constantIndex?_of_functionIndex? hfunction⟩
  exact Nat.lt_irrefl _ (h.used.mem_iff.mp hused)

/-- A unit is added and made a function of. -/
theorem function (h : ConstantPool code consts) {unit : CodeUnit}
    (hinstr : instr.functionIndex? = some consts.length) :
    ConstantPool (code ++ [instr]) (consts ++ [.code unit]) where
  distinct := by
    refine List.pairwise_append.mpr ⟨h.distinct, List.pairwise_singleton _ _, ?_⟩
    intro other hother added hadded _ hunit
    rw [List.mem_singleton] at hadded
    simp [hadded, Constant.isUnit] at hunit
  used := by simpa [Instr.constantIndex?_of_functionIndex? hinstr] using h.used.next
  made_once := by
    intro index other hindex
    by_cases hold : index < consts.length
    · rw [List.getElem?_append_left hold] at hindex
      have hne : consts.length ≠ index := (Nat.ne_of_lt hold).symm
      simpa [hinstr, List.count_singleton, hne] using h.made_once index other hindex
    · have hlt := (List.getElem?_eq_some_iff.mp hindex).1
      have heq : index = consts.length := by
        rw [List.length_append, List.length_singleton] at hlt
        omega
      simp [hinstr, heq, h.count_length]

end ConstantPool

end

/-! ## Ways to grow -/

/-- What drafts have whatever is appended to them: instructions that refer to nothing, and
instructions together with the literal, the unit or the name that they refer to. -/
structure Draft.Kept (P : Draft → Prop) : Prop where
  atLine {draft : Draft} (line : Nat) : P draft → P (draft.atLine line)
  emit {draft : Draft} {instr : Instr} : instr.constantIndex? = none → instr.nameIndex? = none →
    P draft → P (draft.emit instr)
  literal {draft : Draft} (value : Literal) : P draft →
    P (draft.emitConstant .loadConst value.constant)
  unit {draft : Draft} (unit : CodeUnit) : P draft →
    P (draft.emitConstant .makeFunction (.code unit))
  name {draft : Draft} {instr : UInt32 → Instr} (name : String) :
    (∀ index, (instr index).constantIndex? = none) →
    (∀ index, (instr index).nameIndex? = some index.toNat) → P draft → P (draft.emitName instr name)

section

variable {P : Draft → Prop}

mutual
/-- What drafts keep the code of an expression keeps. -/
theorem Expr.generate_keeps (kept : Draft.Kept P) (expr : Expr) {draft : Draft} (h : P draft) :
    P (expr.generate draft) := by
  cases expr with
  | literal _ value => exact kept.literal value h
  | name _ name => exact kept.name name (fun _ => rfl) (fun _ => rfl) h
  | binary _ op left right =>
      exact kept.emit rfl rfl (right.generate_keeps kept (left.generate_keeps kept h))
  | unary _ op operand => exact kept.emit rfl rfl (operand.generate_keeps kept h)
  | compare _ op left right =>
      exact kept.emit rfl rfl (right.generate_keeps kept (left.generate_keeps kept h))
  | logical _ op left right =>
      refine right.generate_keeps kept ?_
      cases op <;> exact kept.emit rfl rfl (left.generate_keeps kept h)
  | call _ callee args =>
      exact kept.emit rfl rfl (generateArguments_keeps kept args (callee.generate_keeps kept h))
  | member _ object name =>
      exact kept.name name (fun _ => rfl) (fun _ => rfl) (object.generate_keeps kept h)

theorem generateArguments_keeps (kept : Draft.Kept P) (args : List Expr) {draft : Draft}
    (h : P draft) : P (generateArguments args draft) := by
  cases args with
  | nil => exact h
  | cons arg rest => exact generateArguments_keeps kept rest (arg.generate_keeps kept h)
end

theorem generateOptional_keeps (kept : Draft.Kept P) (expr : Option Expr) {draft : Draft}
    (h : P draft) : P (generateOptional expr draft) := by
  cases expr with
  | none => exact h
  | some expr => exact expr.generate_keeps kept h

mutual
/-- What drafts keep the code of a statement keeps. -/
theorem Stmt.generate_keeps (kept : Draft.Kept P) (around : Surroundings) (stmt : Stmt)
    {draft : Draft} (h : P draft) : P (stmt.generate around draft) := by
  have hline (line : Nat) : P (draft.atLine line) := kept.atLine line h
  cases stmt with
  | expr place value => exact kept.emit rfl rfl (value.generate_keeps kept (hline _))
  | assign place target value =>
      cases target with
      | name _ name =>
          exact kept.name name (fun _ => rfl) (fun _ => rfl) (value.generate_keeps kept (hline _))
      | _ => exact hline _
  | branch place condition body alternative =>
      have hcondition := condition.generate_keeps kept (hline place.line)
      exact alternative.generate_keeps kept around
        (generateBlock_keeps kept around body (kept.emit rfl rfl hcondition))
  | loop place condition body =>
      have hcondition := condition.generate_keeps kept (hline place.line)
      exact kept.emit rfl rfl (generateBlock_keeps kept _ body (kept.emit rfl rfl hcondition))
  | define place name params body =>
      exact kept.name name (fun _ => rfl) (fun _ => rfl) (kept.unit _ (hline _))
  | giveBack place value =>
      cases value with
      | none => exact kept.emit rfl rfl (kept.literal .none (hline _))
      | some value => exact kept.emit rfl rfl (value.generate_keeps kept (hline _))
  | importModule place name =>
      have himport : P ((draft.atLine place.line).emitName .importName name) :=
        kept.name name (fun _ => rfl) (fun _ => rfl) (hline _)
      exact kept.name name (fun _ => rfl) (fun _ => rfl) himport
  | assert place test message =>
      unfold Stmt.generate
      by_cases hkeep : around.keepAsserts = true
      · rw [if_pos hkeep]
        have htest := test.generate_keeps kept (hline place.line)
        exact kept.emit rfl rfl (generateOptional_keeps kept message (kept.emit rfl rfl htest))
      · rw [if_neg hkeep]
        exact hline _
  | pass place => exact hline _
  | breakLoop place => exact kept.emit rfl rfl (hline _)
  | continueLoop place =>
      unfold Stmt.generate
      cases around.loop with
      | none => exact hline _
      | some loop => exact kept.emit rfl rfl (hline _)

theorem generateBlock_keeps (kept : Draft.Kept P) (around : Surroundings) (block : List Stmt)
    {draft : Draft} (h : P draft) : P (generateBlock around block draft) := by
  cases block with
  | nil => exact h
  | cons stmt rest =>
      exact generateBlock_keeps kept around rest (stmt.generate_keeps kept around h)

theorem Alternative.generate_keeps (kept : Draft.Kept P) (around : Surroundings)
    (alternative : Alternative) {draft : Draft} (h : P draft) :
    P (alternative.generate around draft) := by
  cases alternative with
  | nothing => exact h
  | elif condition body rest =>
      have hjump (target : Nat) : P (draft.emitJump .jump target) := kept.emit rfl rfl h
      have hcondition (target : Nat) := condition.generate_keeps kept (hjump target)
      exact rest.generate_keeps kept around
        (generateBlock_keeps kept around body (kept.emit rfl rfl (hcondition _)))
  | otherwise body => exact generateBlock_keeps kept around body (kept.emit rfl rfl h)
end

end

/-! ## Drafts -/

namespace Draft

section

variable (draft : Draft)

/-- A literal is found in the pool, or it is not there and is added behind. -/
theorem constant_cases (value : Literal) :
    (∃ index < draft.consts.size,
        draft.constant value.constant = (UInt32.ofNat index, draft)) ∨
      value.constant ∉ draft.consts.toList ∧
        draft.constant value.constant = (UInt32.ofNat draft.consts.size,
          { draft with consts := draft.consts.push value.constant }) := by
  rw [constant_literal]
  cases hfind : draft.consts.findIdx? (·.matches value.constant) with
  | some index =>
      obtain ⟨hlt, -⟩ := Array.findIdx?_eq_some_iff_getElem.mp hfind
      exact .inl ⟨index, hlt, rfl⟩
  | none =>
      refine .inr ⟨fun hmem => ?_, rfl⟩
      have hother := Array.findIdx?_eq_none_iff.mp hfind _ (Array.mem_toList_iff.mp hmem)
      rw [(Constant.matches_iff _ _).mpr rfl] at hother
      exact nomatch hother

/-- A name is found in the pool, or it is not there and is added behind. -/
theorem name_cases (name : String) :
    (∃ index < draft.names.size, draft.name name = (UInt32.ofNat index, draft)) ∨
      name ∉ draft.names.toList ∧
        draft.name name =
          (UInt32.ofNat draft.names.size, { draft with names := draft.names.push name }) := by
  unfold Draft.name
  cases hfind : draft.names.findIdx? (· == name) with
  | some index =>
      obtain ⟨hlt, -⟩ := Array.findIdx?_eq_some_iff_getElem.mp hfind
      exact .inl ⟨index, hlt, rfl⟩
  | none =>
      refine .inr ⟨fun hmem => ?_, rfl⟩
      have hother := Array.findIdx?_eq_none_iff.mp hfind _ (Array.mem_toList_iff.mp hmem)
      rw [beq_self_eq_true] at hother
      exact nomatch hother

end

/-- The constants of a draft, as long as operands can tell them apart. -/
def ConstantsPooled (draft : Draft) : Prop :=
  draft.consts.size ≤ UInt32.size → ConstantPool draft.code.toList draft.consts.toList

/-- The names of a draft, as long as operands can tell them apart. -/
def NamesPooled (draft : Draft) : Prop :=
  draft.names.size ≤ UInt32.size → NamePool draft.code.toList draft.names.toList

variable {draft : Draft}

theorem ConstantsPooled.emit (h : draft.ConstantsPooled) {instr : Instr}
    (hinstr : instr.constantIndex? = none) : (draft.emit instr).ConstantsPooled := by
  intro hsize
  rw [Draft.emit, Array.toList_push]
  exact (h hsize).skip hinstr

theorem NamesPooled.emit (h : draft.NamesPooled) {instr : Instr}
    (hinstr : instr.nameIndex? = none) : (draft.emit instr).NamesPooled := by
  intro hsize
  rw [Draft.emit, Array.toList_push]
  exact (h hsize).skip hinstr

theorem ConstantsPooled.literal (h : draft.ConstantsPooled) (value : Literal) :
    (draft.emitConstant .loadConst value.constant).ConstantsPooled := by
  intro hsize
  rcases draft.constant_cases value with ⟨index, hlt, hfound⟩ | ⟨hnew, hadded⟩
  · rw [emitConstant, hfound] at hsize ⊢
    have hindex := toNat_ofNat_of_lt (Nat.lt_of_lt_of_le hlt hsize)
    simp only [Draft.emit, Array.toList_push]
    exact (h hsize).again (congrArg some hindex) rfl hlt
  · rw [emitConstant, hadded] at hsize ⊢
    simp only [Draft.emit, Array.toList_push, Array.size_push] at hsize ⊢
    have hunit : value.constant.isUnit = false := by cases value <;> rfl
    exact (h (Nat.le_of_lt hsize)).next (congrArg some (toNat_ofNat_of_lt hsize)) rfl hunit hnew

theorem ConstantsPooled.unit (h : draft.ConstantsPooled) (unit : CodeUnit) :
    (draft.emitConstant .makeFunction (.code unit)).ConstantsPooled := by
  intro hsize
  simp only [emitConstant, constant, Draft.emit, Array.toList_push, Array.size_push] at hsize ⊢
  exact (h (Nat.le_of_lt hsize)).function (congrArg some (toNat_ofNat_of_lt hsize))

theorem NamesPooled.name (h : draft.NamesPooled) {instr : UInt32 → Instr} (name : String)
    (hinstr : ∀ index, (instr index).nameIndex? = some index.toNat) :
    (draft.emitName instr name).NamesPooled := by
  intro hsize
  rcases draft.name_cases name with ⟨index, hlt, hfound⟩ | ⟨hnew, hadded⟩
  · rw [emitName, hfound] at hsize ⊢
    have hindex := toNat_ofNat_of_lt (Nat.lt_of_lt_of_le hlt hsize)
    simp only [Draft.emit, Array.toList_push]
    exact (h hsize).again ((hinstr _).trans (congrArg some hindex)) hlt
  · rw [emitName, hadded] at hsize ⊢
    simp only [Draft.emit, Array.toList_push, Array.size_push] at hsize ⊢
    have hindex := toNat_ofNat_of_lt (n := draft.names.size) hsize
    exact (h (Nat.le_of_lt hsize)).next ((hinstr _).trans (congrArg some hindex)) hnew

/-- Constants are used in the order of the pool, whatever is appended. -/
theorem constantsPooled_kept : Kept ConstantsPooled where
  atLine _ h := h
  emit hconstant _ h := h.emit hconstant
  literal value h := h.literal value
  unit unit h := h.unit unit
  name {draft _} name hconstant _ h := by
    have hname : (draft.name name).2.ConstantsPooled := by
      unfold Draft.name
      split <;> exact h
    exact hname.emit (hconstant _)

/-- Names are used in the order of the pool, whatever is appended. -/
theorem namesPooled_kept : Kept NamesPooled where
  atLine _ h := h
  emit _ hname h := h.emit hname
  literal {draft} value h := by
    have hconstant : (draft.constant value.constant).2.NamesPooled := by
      rw [constant_literal]
      split <;> exact h
    exact hconstant.emit rfl
  unit unit h := NamesPooled.emit h rfl
  name name _ hindex h := h.name name hindex

theorem constantsPooled_start (line : UInt32) : ConstantsPooled { line } :=
  fun _ => ⟨.nil, rfl, by simp⟩

theorem namesPooled_start (line : UInt32) : NamesPooled { line } :=
  fun _ => ⟨.nil, rfl⟩

end Draft

/-! ## Units -/

/-- What drafts keep the draft of a complete body has. -/
theorem finish_keeps {P : Draft → Prop} (kept : Draft.Kept P) (around : Surroundings) (body : Block)
    {draft : Draft} (h : P draft) :
    P (((generateBlock around body draft).emitConstant .loadConst .none).emit .giveBack) :=
  kept.emit rfl rfl (kept.literal .none (generateBlock_keeps kept around body h))

/-- In every unit of a program the constants, units apart, are pairwise different and so are the
names, the instructions use all of them, for the first time in the order of the pools, and of every
unit one instruction makes a function, as long as operands can tell the entries of a pool apart. -/
theorem pools_in_first_use_order (file : String) (optimize : UInt8) (program : Block) :
    ∀ unit ∈ (generate file optimize program).units,
      unit.consts.length ≤ UInt32.size → unit.names.size ≤ UInt32.size →
        ConstantPool unit.code.toList unit.consts ∧
          NamePool unit.code.toList unit.names.toList := by
  intro unit hunit hconsts hnames
  rw [units_generate] at hunit
  obtain ⟨⟨_, body⟩, hbody, rfl⟩ := List.mem_map.mp hunit
  obtain ⟨line, name, params, rfl⟩ := exists_of_mem_programBodies hbody
  have hconstants := finish_keeps constantsPooled_kept { file, keepAsserts := optimize == 0 } body
    (constantsPooled_start (UInt32.ofNat line))
  have hnamed := finish_keeps namesPooled_kept { file, keepAsserts := optimize == 0 } body
    (namesPooled_start (UInt32.ofNat line))
  exact ⟨hconstants hconsts, hnamed hnames⟩

/-- The pools of a program that defines a function `f` and then assigns `True`, `1` and `True` to
its name. -/
theorem pools_in_first_use_order_true_one :
    let assign (value : Literal) : Stmt :=
      .assign ⟨⟨0, 0⟩, 1⟩ (.name ⟨0, 0⟩ "f") (.literal ⟨0, 0⟩ value)
    let program : Block := [.define ⟨⟨0, 0⟩, 1⟩ "f" [] [.pass ⟨⟨0, 0⟩, 1⟩], assign (.bool true),
      assign (.int 1), assign (.bool true)]
    let unit := generate "m" 0 program
    unit.consts.tail = [.bool true, .int 1, .none] ∧ unit.names = #["f"] ∧
      ConstantPool unit.code.toList unit.consts ∧ NamePool unit.code.toList unit.names.toList := by
  intro assign program unit
  have hunit : unit ∈ (generate "m" 0 program).units := by
    rw [units_generate]
    exact List.mem_cons_self
  exact ⟨by decide +kernel, by decide +kernel, pools_in_first_use_order "m" 0 program unit hunit
    (by decide +kernel) (by decide +kernel)⟩

end FrozenScript
