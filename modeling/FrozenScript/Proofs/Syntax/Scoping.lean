import FrozenScript.Syntax.Scoping

/-!
# Well-scoped programs

`WellScoped` says which programs obey the scoping rules, in terms of the constructs that stand
around each statement, and `Violates` says how a statement breaks a rule. The main statement,
`checkScoping_finds_first_violation`, says that `checkScoping` accepts exactly the well-scoped
programs and reports the first violation of the others, in the order of the text.

Both are stated on `blockOccurrences`, which lists the statements of a program, each one before the
statements inside it. The proof turns the checker into a walk over this list
(`checkBlock_eq_forM`), so that it never has to follow the context that the checker keeps.
-/

namespace FrozenScript

open Text

/-! ## Occurrences of statements -/

/-- A construct around a statement that the scoping rules ask for. -/
inductive Enclosing where
  | function
  | loop
  deriving DecidableEq, Repr

/-- A statement of a program, with the constructs around it, innermost first. -/
structure Occurrence where
  around : List Enclosing
  stmt : Stmt

mutual
/-- The statements inside a statement, in the order of the text. -/
def Stmt.inside (around : List Enclosing) : Stmt → List Occurrence
  | .branch _ _ body alternative =>
    blockOccurrences around body ++ alternative.occurrences around
  | .loop _ _ body => blockOccurrences (.loop :: around) body
  | .define _ _ _ body => blockOccurrences (.function :: around) body
  | .expr .. | .assign .. | .giveBack .. | .importModule .. | .assert .. | .pass _ | .breakLoop _
  | .continueLoop _ => []

/-- The statements of a block, each one before those inside it, in the order of the text. -/
def blockOccurrences (around : List Enclosing) : List Stmt → List Occurrence
  | [] => []
  | stmt :: rest => ⟨around, stmt⟩ :: (stmt.inside around ++ blockOccurrences around rest)

/-- The statements of an alternative, each one before those inside it, in the order of the text. -/
def Alternative.occurrences (around : List Enclosing) : Alternative → List Occurrence
  | .nothing => []
  | .elif _ body rest => blockOccurrences around body ++ rest.occurrences around
  | .otherwise body => blockOccurrences around body
end

/-! ## The rules -/

/-- A loop stands around a statement, and no function between the two. -/
def InLoop (around : List Enclosing) : Prop :=
  ∃ inner outer, around = inner ++ .loop :: outer ∧ .function ∉ inner

/-- A program obeys the scoping rules. -/
structure WellScoped (program : Block) : Prop where
  /-- Functions give something back, and nothing else does. -/
  giveBack : ∀ around place value, ⟨around, .giveBack place value⟩ ∈ blockOccurrences [] program →
    .function ∈ around
  breakLoop : ∀ around place, ⟨around, .breakLoop place⟩ ∈ blockOccurrences [] program →
    InLoop around
  continueLoop : ∀ around place, ⟨around, .continueLoop place⟩ ∈ blockOccurrences [] program →
    InLoop around
  params : ∀ around place name params body,
    ⟨around, .define place name params body⟩ ∈ blockOccurrences [] program →
      (params.map Param.name).Nodup
  target : ∀ around place target value,
    ⟨around, .assign place target value⟩ ∈ blockOccurrences [] program →
      ∃ span name, target = .name span name

/-- An expression that nothing can be assigned to, with the word for it. -/
inductive Expr.NoTarget : Expr → String → Prop where
  | literal {span : Span} {value : Literal} : NoTarget (.literal span value) "literal"
  | call {span : Span} {callee : Expr} {args : List Expr} :
      NoTarget (.call span callee args) "function call"
  | member {span : Span} {object : Expr} {name : String} :
      NoTarget (.member span object name) "attribute"
  | binary {span : Span} {op : BinaryOp} {left right : Expr} :
      NoTarget (.binary span op left right) "expression"
  | unary {span : Span} {op : UnaryOp} {operand : Expr} :
      NoTarget (.unary span op operand) "expression"
  | compare {span : Span} {op : CompareOp} {left right : Expr} :
      NoTarget (.compare span op left right) "expression"
  | logical {span : Span} {op : LogicalOp} {left right : Expr} :
      NoTarget (.logical span op left right) "expression"

/-- A statement breaks a scoping rule, which is reported at a span with a message. A function breaks
the rule on its parameters at the first one that repeats the name of an earlier one. -/
inductive Violates : Occurrence → Span → (message : String) → Prop where
  | giveBack {around : List Enclosing} {place : Place} {value : Option Expr}
      (h : .function ∉ around) :
      Violates ⟨around, .giveBack place value⟩ place.span "'return' outside function"
  | breakLoop {around : List Enclosing} {place : Place} (h : ¬ InLoop around) :
      Violates ⟨around, .breakLoop place⟩ place.span "'break' outside loop"
  | continueLoop {around : List Enclosing} {place : Place} (h : ¬ InLoop around) :
      Violates ⟨around, .continueLoop place⟩ place.span "'continue' not properly in loop"
  | target {around : List Enclosing} {place : Place} {target value : Expr} {what : String}
      (h : target.NoTarget what) :
      Violates ⟨around, .assign place target value⟩ target.span s!"cannot assign to {what}"
  | params {around : List Enclosing} {place : Place} {name : String} {earlier later : List Param}
      {param : Param} {body : List Stmt} (hearlier : (earlier.map Param.name).Nodup)
      (hrepeated : param.name ∈ earlier.map Param.name) :
      Violates ⟨around, .define place name (earlier ++ param :: later) body⟩ param.span
        s!"duplicate argument '{param.name}' in function definition"

/-- The first statement of a program that breaks a scoping rule breaks it at a span, with a
message. -/
def FirstViolation (program : Block) (span : Span) (message : String) : Prop :=
  ∃ before occurrence after, blockOccurrences [] program = before ++ occurrence :: after ∧
    (∀ earlier ∈ before, ∀ span message, ¬ Violates earlier span message) ∧
    Violates occurrence span message

namespace Scoping

/-! ## The checker as a walk -/

/-- What the checker knows of the constructs around a statement. -/
def enclosureOf (around : List Enclosing) : Enclosure where
  inFunction := decide (.function ∈ around)
  inLoop := around.head? == some .loop

/-- The innermost construct decides whether a loop can be left. -/
theorem inLoop_iff (around : List Enclosing) :
    InLoop around ↔ (enclosureOf around).inLoop = true := by
  have hhead : (enclosureOf around).inLoop = true ↔ around.head? = some .loop := beq_iff_eq
  rw [hhead]
  constructor
  · rintro ⟨inner, outer, rfl, hinner⟩
    cases inner with
    | nil => rfl
    | cons first inner =>
        cases first with
        | function => exact absurd List.mem_cons_self hinner
        | loop => rfl
  · intro h
    obtain ⟨outer, rfl⟩ := List.head?_eq_some_iff.mp h
    exact ⟨[], outer, rfl, List.not_mem_nil⟩

/-- A loop hides no function around it. -/
theorem enclosureOf_loop (around : List Enclosing) :
    enclosureOf (.loop :: around) = { enclosureOf around with inLoop := true } := by
  simp [enclosureOf]

/-- Check a statement apart from the statements inside it. -/
def checkOccurrence : Occurrence → Except ScopeError Unit
  | ⟨around, .giveBack place _⟩ =>
    require (enclosureOf around).inFunction .returnOutsideFunction place.span
  | ⟨around, .breakLoop place⟩ =>
    require (enclosureOf around).inLoop .breakOutsideLoop place.span
  | ⟨around, .continueLoop place⟩ =>
    require (enclosureOf around).inLoop .continueOutsideLoop place.span
  | ⟨_, .assign _ target _⟩ => checkTarget target
  | ⟨_, .define _ _ params _⟩ => checkParams [] params
  | _ => .ok ()

mutual
/-- Checking a statement is checking it and then the statements inside it. -/
theorem checkStmt_eq_forM (around : List Enclosing) (stmt : Stmt) :
    checkStmt (enclosureOf around) stmt =
      (do checkOccurrence ⟨around, stmt⟩; forM (stmt.inside around) checkOccurrence) := by
  cases stmt with
  | branch place condition body alternative =>
      rw [Stmt.inside, List.forM_append, ← checkBlock_eq_forM around body,
        ← checkAlternative_eq_forM around alternative]
      rfl
  | loop place condition body =>
      rw [Stmt.inside, ← checkBlock_eq_forM (.loop :: around) body, enclosureOf_loop]
      rfl
  | define place name params body =>
      rw [Stmt.inside, ← checkBlock_eq_forM (.function :: around) body]
      rfl
  | _ => exact (bind_pure_unit).symm

/-- Checking a block is checking its statements and those inside them one after the other. -/
theorem checkBlock_eq_forM (around : List Enclosing) (block : List Stmt) :
    checkBlock (enclosureOf around) block =
      forM (blockOccurrences around block) checkOccurrence := by
  cases block with
  | nil => rfl
  | cons stmt rest =>
      rw [blockOccurrences, List.forM_cons, List.forM_append, ← checkBlock_eq_forM around rest,
        checkBlock, checkStmt_eq_forM around stmt, bind_assoc]

theorem checkAlternative_eq_forM (around : List Enclosing) (alternative : Alternative) :
    checkAlternative (enclosureOf around) alternative =
      forM (alternative.occurrences around) checkOccurrence := by
  cases alternative with
  | nothing => rfl
  | elif condition body rest =>
      rw [Alternative.occurrences, List.forM_append, ← checkBlock_eq_forM around body,
        ← checkAlternative_eq_forM around rest]
      rfl
  | otherwise body => exact checkBlock_eq_forM around body
end

section

variable {occurrences : List Occurrence} {error : ScopeError}

/-- A walk succeeds if every statement does. -/
theorem forM_eq_ok_iff : forM occurrences checkOccurrence = .ok () ↔
    ∀ occurrence ∈ occurrences, checkOccurrence occurrence = .ok () := by
  induction occurrences with
  | nil => exact iff_of_true rfl nofun
  | cons first rest ih =>
      rw [List.forM_cons, List.forall_mem_cons, ← ih]
      cases checkOccurrence first with
      | error error => exact iff_of_false nofun fun h => nomatch h.1
      | ok => exact (and_iff_right rfl).symm

/-- A walk fails at the first statement that does. -/
theorem forM_eq_error_iff : forM occurrences checkOccurrence = .error error ↔
    ∃ before occurrence after, occurrences = before ++ occurrence :: after ∧
      (∀ earlier ∈ before, checkOccurrence earlier = .ok ()) ∧
      checkOccurrence occurrence = .error error := by
  constructor
  · intro h
    induction occurrences with
    | nil => exact nomatch h
    | cons first rest ih =>
        rw [List.forM_cons] at h
        cases hfirst : checkOccurrence first with
        | error cause =>
            rw [hfirst] at h
            exact ⟨[], first, rest, rfl, nofun, hfirst.trans h⟩
        | ok =>
            rw [hfirst] at h
            obtain ⟨before, occurrence, after, rfl, hbefore, hfault⟩ := ih h
            exact ⟨first :: before, occurrence, after, rfl,
              List.forall_mem_cons.mpr ⟨hfirst, hbefore⟩, hfault⟩
  · rintro ⟨before, occurrence, after, rfl, hbefore, hfault⟩
    rw [List.forM_append, forM_eq_ok_iff.mpr hbefore, List.forM_cons, hfault]
    rfl

end

/-! ## One statement -/

section

variable {error : ScopeError}

theorem checkTarget_eq_ok_iff {target : Expr} :
    checkTarget target = .ok () ↔ ∃ span name, target = .name span name := by
  cases target <;> simp [checkTarget]

/-- What cannot be assigned to is reported with the word for it. -/
theorem checkTarget_eq_error_iff {target : Expr} :
    checkTarget target = .error error ↔
      ∃ what, target.NoTarget what ∧ ⟨.badTarget what, target.span⟩ = error := by
  constructor
  · intro h
    cases target with
    | name => exact nomatch h
    | literal => exact ⟨_, .literal, Except.error.inj h⟩
    | binary => exact ⟨_, .binary, Except.error.inj h⟩
    | unary => exact ⟨_, .unary, Except.error.inj h⟩
    | compare => exact ⟨_, .compare, Except.error.inj h⟩
    | logical => exact ⟨_, .logical, Except.error.inj h⟩
    | call => exact ⟨_, .call, Except.error.inj h⟩
    | member => exact ⟨_, .member, Except.error.inj h⟩
  · rintro ⟨what, hwhat, rfl⟩
    cases hwhat <;> rfl

theorem checkParams_cons (seen : List String) (param : Param) (rest : List Param) :
    checkParams seen (param :: rest) =
      if param.name ∈ seen then .error ⟨.repeatedParameter param.name, param.span⟩
      else checkParams (param.name :: seen) rest := by
  simp only [checkParams, List.contains_iff_mem]

/-- Parameters are accepted if no name occurs twice among them and those seen before. -/
theorem checkParams_eq_ok_iff {seen : List String} {params : List Param} :
    checkParams seen params = .ok () ↔
      (params.map Param.name).Nodup ∧ ∀ param ∈ params, param.name ∉ seen := by
  induction params generalizing seen with
  | nil => simp [checkParams]
  | cons param rest ih =>
      rw [checkParams_cons]
      by_cases hseen : param.name ∈ seen
      · simp [hseen]
      · have hnew : (∀ other ∈ rest, other.name ∉ param.name :: seen) ↔
            param.name ∉ rest.map Param.name ∧ ∀ other ∈ rest, other.name ∉ seen := by
          simp only [List.mem_cons, not_or, List.mem_map, not_exists, not_and]
          exact ⟨fun h => ⟨fun other hother => (h other hother).1,
              fun other hother => (h other hother).2⟩,
            fun h other hother => ⟨h.1 other hother, h.2 other hother⟩⟩
        rw [if_neg hseen, ih, hnew, List.map_cons, List.nodup_cons, List.forall_mem_cons]
        simp only [hseen, not_false_eq_true, true_and]
        rw [← and_assoc, and_comm (b := param.name ∉ _)]

/-- Parameters are refused at the first one whose name occurs before it. -/
theorem checkParams_eq_error_iff {seen : List String} {params : List Param} :
    checkParams seen params = .error error ↔
      ∃ earlier param later, params = earlier ++ param :: later ∧
        checkParams seen earlier = .ok () ∧
        (param.name ∈ earlier.map Param.name ∨ param.name ∈ seen) ∧
        ⟨.repeatedParameter param.name, param.span⟩ = error := by
  induction params generalizing seen with
  | nil => simp [checkParams]
  | cons first rest ih =>
      rw [checkParams_cons]
      constructor
      · intro h
        split at h
        next hseen => exact ⟨[], first, rest, rfl, rfl, .inr hseen, Except.error.inj h⟩
        next hseen =>
          obtain ⟨earlier, param, later, rfl, hearlier, hrepeated, herror⟩ := ih.mp h
          refine ⟨first :: earlier, param, later, rfl, ?_, ?_, herror⟩
          · rw [checkParams_cons, if_neg hseen, hearlier]
          · rw [List.mem_cons] at hrepeated
            rw [List.map_cons, List.mem_cons]
            rcases hrepeated with hearlier | heq | hseen
            · exact .inl (.inr hearlier)
            · exact .inl (.inl heq)
            · exact .inr hseen
      · rintro ⟨earlier, param, later, hsplit, hearlier, hrepeated, herror⟩
        cases earlier with
        | nil =>
            obtain ⟨rfl, rfl⟩ := List.cons.inj hsplit
            rw [List.map_nil] at hrepeated
            rw [if_pos (hrepeated.resolve_left List.not_mem_nil), herror]
        | cons head earlier =>
            obtain ⟨rfl, rfl⟩ := List.cons.inj hsplit
            rw [checkParams_cons] at hearlier
            split at hearlier
            next => exact nomatch hearlier
            next hseen =>
              rw [if_neg hseen]
              refine ih.mpr ⟨earlier, param, later, rfl, hearlier, ?_, herror⟩
              rw [List.map_cons, List.mem_cons] at hrepeated
              rw [List.mem_cons]
              rcases hrepeated with (heq | hearlier) | hseen
              · exact .inr (.inl heq)
              · exact .inl hearlier
              · exact .inr (.inr hseen)

/-- A statement is refused if it breaks a rule, with the place and the message of that. -/
theorem violates_iff {occurrence : Occurrence} {span : Span} {message : String} :
    Violates occurrence span message ↔
      ∃ fault, checkOccurrence occurrence = .error ⟨fault, span⟩ ∧ fault.message = message := by
  -- One rule per kind of statement: a violation fixes the statement, and a refusal fixes the rule.
  constructor
  · intro h
    cases h with
    | giveBack h =>
        exact ⟨_, require_eq_error_iff.mpr ⟨decide_eq_false h, rfl⟩, rfl⟩
    | breakLoop h =>
        rw [inLoop_iff, Bool.not_eq_true] at h
        exact ⟨_, require_eq_error_iff.mpr ⟨h, rfl⟩, rfl⟩
    | continueLoop h =>
        rw [inLoop_iff, Bool.not_eq_true] at h
        exact ⟨_, require_eq_error_iff.mpr ⟨h, rfl⟩, rfl⟩
    | target h => exact ⟨_, checkTarget_eq_error_iff.mpr ⟨_, h, rfl⟩, rfl⟩
    | params hearlier hrepeated =>
        have hok := checkParams_eq_ok_iff.mpr ⟨hearlier, fun _ _ => List.not_mem_nil⟩
        exact ⟨_, checkParams_eq_error_iff.mpr ⟨_, _, _, rfl, hok, .inl hrepeated, rfl⟩, rfl⟩
  · rintro ⟨fault, h, rfl⟩
    obtain ⟨around, stmt⟩ := occurrence
    cases stmt with
    | giveBack place value =>
        obtain ⟨houtside, heq⟩ := require_eq_error_iff.mp h
        cases heq
        exact .giveBack (of_decide_eq_false houtside)
    | breakLoop place =>
        obtain ⟨houtside, heq⟩ := require_eq_error_iff.mp h
        cases heq
        exact .breakLoop (by rw [inLoop_iff, houtside]; exact Bool.false_ne_true)
    | continueLoop place =>
        obtain ⟨houtside, heq⟩ := require_eq_error_iff.mp h
        cases heq
        exact .continueLoop (by rw [inLoop_iff, houtside]; exact Bool.false_ne_true)
    | assign place target value =>
        obtain ⟨what, hwhat, heq⟩ := checkTarget_eq_error_iff.mp h
        cases heq
        exact .target hwhat
    | define place name params body =>
        obtain ⟨earlier, param, later, rfl, hearlier, hrepeated, heq⟩ :=
          checkParams_eq_error_iff.mp h
        cases heq
        have hnew : param.name ∉ [] := List.not_mem_nil
        exact .params (checkParams_eq_ok_iff.mp hearlier).1 (hrepeated.resolve_right hnew)
    | _ => exact nomatch h

/-- A statement that breaks no rule is accepted. -/
theorem checkOccurrence_eq_ok_iff {occurrence : Occurrence} :
    checkOccurrence occurrence = .ok () ↔ ∀ span message, ¬ Violates occurrence span message := by
  simp only [violates_iff]
  cases checkOccurrence occurrence with
  | ok => simp
  | error error => exact iff_of_false nofun fun h => h _ _ ⟨error.fault, rfl, rfl⟩

end

/-- The well-scoped programs are those whose statements are all accepted. -/
theorem wellScoped_iff (program : Block) : WellScoped program ↔
    ∀ occurrence ∈ blockOccurrences [] program, checkOccurrence occurrence = .ok () := by
  constructor
  · rintro h ⟨around, stmt⟩ hmem
    cases stmt with
    | giveBack place value =>
        exact require_eq_ok_iff.mpr (decide_eq_true (h.giveBack around place value hmem))
    | breakLoop place =>
        exact require_eq_ok_iff.mpr ((inLoop_iff around).mp (h.breakLoop around place hmem))
    | continueLoop place =>
        exact require_eq_ok_iff.mpr ((inLoop_iff around).mp (h.continueLoop around place hmem))
    | assign place target value =>
        exact checkTarget_eq_ok_iff.mpr (h.target around place target value hmem)
    | define place name params body =>
        have hparams := h.params around place name params body hmem
        exact checkParams_eq_ok_iff.mpr ⟨hparams, fun _ _ => List.not_mem_nil⟩
    | _ => rfl
  · intro h
    refine ⟨fun around place value hmem => ?_, fun around place hmem => ?_,
      fun around place hmem => ?_, fun around place name params body hmem => ?_,
      fun around place target value hmem => ?_⟩
    · exact of_decide_eq_true (require_eq_ok_iff.mp (h _ hmem))
    · exact (inLoop_iff around).mpr (require_eq_ok_iff.mp (h _ hmem))
    · exact (inLoop_iff around).mpr (require_eq_ok_iff.mp (h _ hmem))
    · exact (checkParams_eq_ok_iff.mp (h _ hmem)).1
    · exact checkTarget_eq_ok_iff.mp (h _ hmem)

end Scoping

open Scoping

/-- The checker walks over the statements of a program in the order of the text. -/
theorem checkScoping_eq_forM (program : Block) :
    checkScoping program = forM (blockOccurrences [] program) checkOccurrence :=
  checkBlock_eq_forM [] program

/-- The scoping rules accept exactly the well-scoped programs. Of any other program they report the
first violation in the order of the text, with its place and its message. -/
theorem checkScoping_finds_first_violation (program : Block) :
    (checkScoping program = .ok () ↔ WellScoped program) ∧
      ∀ span message, (∃ fault, checkScoping program = .error ⟨fault, span⟩ ∧
        fault.message = message) ↔ FirstViolation program span message := by
  rw [checkScoping_eq_forM]
  refine ⟨by rw [forM_eq_ok_iff, wellScoped_iff], fun span message => ?_⟩
  constructor
  · rintro ⟨fault, h, hmessage⟩
    obtain ⟨before, occurrence, after, hsplit, hbefore, hfault⟩ := forM_eq_error_iff.mp h
    exact ⟨before, occurrence, after, hsplit,
      fun earlier hmem => checkOccurrence_eq_ok_iff.mp (hbefore earlier hmem),
      violates_iff.mpr ⟨fault, hfault, hmessage⟩⟩
  · rintro ⟨before, occurrence, after, hsplit, hbefore, hviolates⟩
    obtain ⟨fault, hfault, hmessage⟩ := violates_iff.mp hviolates
    exact ⟨fault, forM_eq_error_iff.mpr ⟨before, occurrence, after, hsplit,
      fun earlier hmem => checkOccurrence_eq_ok_iff.mpr (hbefore earlier hmem), hfault⟩, hmessage⟩

/-- A function stands between the loop and the jump out of it. -/
example : checkScoping
    [.loop ⟨⟨0, 26⟩, 1⟩ (.name ⟨6, 1⟩ "x")
      [.define ⟨⟨10, 16⟩, 2⟩ "f" [] [.breakLoop ⟨⟨21, 5⟩, 3⟩]]] =
    .error ⟨.breakOutsideLoop, ⟨21, 5⟩⟩ :=
  rfl

end FrozenScript
