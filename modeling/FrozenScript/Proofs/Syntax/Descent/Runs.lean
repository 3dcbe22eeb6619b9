import FrozenScript.Proofs.Syntax.Descent.Machine
import FrozenScript.Proofs.Syntax.Foresight
import FrozenScript.Proofs.Syntax.Nesting

/-!
# Runs of the machine within bounds

`Follows` says of some code and a state that the machine comes to the outcome of a reader, without
exceeding a number of callers, the limit of nesting, or the levels that are open, and in which state
it is if it succeeds. There is a lemma for everything that code does but calls.

All that counts of a state here is how many levels are open and how many tokens are left, so the
states after a step are only described by these two numbers.
-/

namespace FrozenScript.Descent

open Text

variable {ρ α β : Type}

/-! ## Bounds -/

namespace Routine

/-- Without opening a level of nesting, a routine calls only those of lower ranks. -/
@[simp] def rank : Routine α → Nat
  | .expression | .parameters _ | .links .. | .trailers .. => 0
  | .simple | .arguments _ | .atom => 1
  | .block | .trailed => 2
  | .guarded | .definition | .signed .minus => 3
  | .alternatives _ | .chain .product => 4
  | .statement | .chain .sum => 5
  | .program _ | .statements _ | .comparison => 6
  | .signed .not => 7
  | .chain .conjunction => 8
  | .chain .disjunction => 9

/-- A bound on the calls inside each other in a call of a routine. -/
def frames (routine : Routine α) (state : ParseState) : Nat :=
  routine.rank + 10 * (maxNesting - state.depth)

/-- The levels that a loop has opened before, and closes at its end. -/
def held : Routine α → Nat
  | .links _ held _ | .trailers held _ => held
  | _ => 0

/-- How many tokens a routine consumes at least. Loops only go on with what was begun. -/
def consumed : Routine α → Nat
  | .program _ | .statements _ | .alternatives _ | .parameters _ | .links .. | .trailers ..
  | .arguments _ => 0
  | _ => 1

theorem rank_lt (routine : Routine α) : routine.rank < 10 := by
  cases routine with
  | chain strength => cases strength <;> simp
  | signed sign => cases sign <;> simp
  | _ => simp

theorem held_of_consumed {routine : Routine α} (h : routine.consumed = 1) : routine.held = 0 := by
  cases routine <;> first | rfl | exact nomatch h

section

variable {caller : Routine α} {callee : Routine β} {before after : ParseState}

/-- A routine of lower rank is called. -/
theorem frames_lt (hdepth : before.depth ≤ after.depth) (hrank : callee.rank < caller.rank) :
    callee.frames after < caller.frames before := by
  unfold frames
  omega

/-- A routine is called inside a level that was opened. -/
theorem frames_lt_of_deeper (hdepth : before.depth < after.depth)
    (hopen : before.depth < maxNesting) : callee.frames after < caller.frames before := by
  have hrank := callee.rank_lt
  unfold frames
  omega

/-- A loop goes on as deep as it was, or deeper. -/
theorem frames_le (hdepth : before.depth ≤ after.depth) (hrank : callee.rank ≤ caller.rank) :
    callee.frames after ≤ caller.frames before := by
  unfold frames
  omega

end

end Routine

/-- From the first state to the second one, the levels that are held were closed and no other ones
are open, and at least as many tokens were consumed as is said. -/
structure Restores (held consumed : Nat) (before after : ParseState) : Prop where
  depth : after.depth + held = before.depth
  tokens : after.rest.length + consumed ≤ before.rest.length

/-! ## Runs -/

/-- The stack and the counter of levels are within bounds. The counter is above the limit only when
the machine stops for that. -/
def Config.Within (limit : Nat) : Config ρ → Prop
  | .running _ callers state => callers.height ≤ limit ∧ state.depth ≤ maxNesting
  | .ended _ state => state.depth ≤ maxNesting + 1
  | .underflow => False

/-- The machine comes from one state to another one within bounds. -/
inductive Run (limit : Nat) : Config ρ → Config ρ → Prop where
  | done {config} : config.Within limit → Run limit config config
  | step {config last} : config.Within limit → Run limit config.step last → Run limit config last

namespace Run

variable {limit : Nat} {config between last : Config ρ}

theorem trans (h : Run limit config between) (h' : Run limit between last) :
    Run limit config last := by
  induction h with
  | done _ => exact h'
  | step hwithin _ ih => exact .step hwithin (ih h')

theorem within (h : Run limit config last) : last.Within limit := by
  induction h with
  | done hwithin => exact hwithin
  | step _ _ ih => exact ih

theorem exists_after (h : Run limit config last) : ∃ steps, config.after steps = last := by
  induction h with
  | done _ => exact ⟨0, rfl⟩
  | step _ _ ih =>
      obtain ⟨steps, hsteps⟩ := ih
      exact ⟨steps + 1, hsteps⟩

/-- A machine that comes to a halt within bounds is always within bounds. -/
theorem within_after (h : Run limit config last) (hlast : last.step = last) (steps : Nat) :
    (config.after steps).Within limit := by
  induction h generalizing steps with
  | @done config hwithin =>
      have hstays : config.after steps = config := by
        induction steps with
        | zero => rfl
        | succ steps ih => rw [Config.after, hlast, ih]
      rw [hstays]
      exact hwithin
  | step hwithin _ ih =>
      cases steps with
      | zero => exact hwithin
      | succ steps => exact ih hlast steps

end Run

/-- The machine comes within bounds to the outcome of some code: with a value back to the callers,
in a state that is good, or to the end with an error. -/
def Arrives (limit : Nat) (config : Config ρ) (callers : Stack ρ α) (good : ParseState → Prop) :
    Except ParseError (α × ParseState) → Prop
  | .ok (value, after) => Run limit config (.running (.result value) callers after) ∧ good after
  | .error error => ∃ last, Run limit config (.ended (.error error) last)

theorem Arrives.after {limit : Nat} {config between : Config ρ} {callers : Stack ρ α}
    {good : ParseState → Prop} {outcome : Except ParseError (α × ParseState)}
    (hrun : Run limit config between) (h : Arrives limit between callers good outcome) :
    Arrives limit config callers good outcome := by
  cases outcome with
  | ok pair => exact ⟨hrun.trans h.1, h.2⟩
  | error error =>
      obtain ⟨last, hlast⟩ := h
      exact ⟨last, hrun.trans hlast⟩

/-- In a state, code has the outcome of a parser, whoever waits for it, and needs no more than some
calls inside each other for that. If it succeeds, the state is good then. -/
def Follows (frames : Nat) (code : Code α) (parser : Parser α) (good : ParseState → Prop)
    (state : ParseState) : Prop :=
  state.depth ≤ maxNesting → ∀ {ρ : Type} (callers : Stack ρ α) (limit : Nat),
    callers.height + frames ≤ limit →
      Arrives limit (.running code callers state) callers good (parser state)

/-- What an action does leaves the levels of nesting as they are. -/
theorem Action.steady (action : Action α) : Parser.Steady action.reader := by
  cases action with
  | peek => exact Parser.steady_peek
  | peekToken => exact Parser.steady_peekToken
  | isNext kind => exact Parser.steady_isNext kind
  | skip => exact Parser.steady_skip
  | eat kind => exact Parser.steady_eat kind
  | expect kind => exact Parser.steady_expect kind
  | identifier => exact Parser.steady_identifier
  | lastSpan => exact Parser.steady_lastSpan
  | unexpected expected => exact Parser.steady_unexpected expected
  | fail fault span => exact Parser.steady_fail fault span

namespace Follows

variable {frames : Nat} {good : ParseState → Prop} {state : ParseState}

theorem result {value : α} (h : good state) :
    Follows frames (pure value) (pure value) good state :=
  fun hdepth _ _ _ hlimit => ⟨.done ⟨Nat.le_of_add_right_le hlimit, hdepth⟩, h⟩

theorem weaken {code : Code α} {parser : Parser α} {fewer : Nat} {better : ParseState → Prop}
    (h : Follows fewer code parser better state) (hframes : fewer ≤ frames)
    (hgood : ∀ after, better after → good after) : Follows frames code parser good state := by
  intro hdepth ρ callers limit hlimit
  have harrives := h hdepth callers limit (by omega)
  cases houtcome : parser state with
  | error error => rwa [houtcome] at harrives
  | ok pair =>
      rw [houtcome] at harrives
      exact ⟨harrives.1, hgood _ harrives.2⟩

/-- The machine makes a step after which code with the same outcome is left. -/
theorem step {code code' : Code α} {parser parser' : Parser α} {after : ParseState}
    (hstep : ∀ {ρ : Type} (callers : Stack ρ α),
      (Config.running code callers state).step = .running code' callers after)
    (hparser : parser state = parser' after)
    (hafter : state.depth ≤ maxNesting → after.depth ≤ maxNesting)
    (h : Follows frames code' parser' good after) : Follows frames code parser good state := by
  intro hdepth ρ callers limit hlimit
  have hrun : Run limit (.running code callers state) (.running code' callers after) := by
    refine .step ⟨Nat.le_of_add_right_le hlimit, hdepth⟩ ?_
    rw [hstep]
    exact .done ⟨Nat.le_of_add_right_le hlimit, hafter hdepth⟩
  rw [hparser]
  exact (h (hafter hdepth) callers limit hlimit).after hrun

/-- The machine ends with an error. -/
theorem stop {code : Code α} {parser : Parser α} {error : ParseError} {last : ParseState}
    (hstep : ∀ {ρ : Type} (callers : Stack ρ α),
      (Config.running code callers state).step = .ended (.error error) last)
    (hparser : parser state = .error error) (hlast : last.depth ≤ state.depth + 1) :
    Follows frames code parser good state := by
  intro hdepth ρ callers limit hlimit
  rw [hparser]
  refine ⟨last, .step ⟨Nat.le_of_add_right_le hlimit, hdepth⟩ ?_⟩
  rw [hstep]
  exact .done (Nat.le_trans hlast (Nat.succ_le_succ hdepth))

theorem perform (action : Action β) {next : β → Code α} {f : β → Parser α}
    (h : ∀ value after, action.reader state = .ok (value, after) →
      Follows frames (next value) (f value) good after) :
    Follows frames (Descent.perform action >>= next) (action.reader >>= f) good state := by
  show Follows frames (.perform action next) _ good state
  cases haction : action.reader state with
  | error error =>
      refine stop (fun callers => ?_) (Parser.bind_of_error haction) (Nat.le_succ _)
      simp only [Config.step, haction]
  | ok pair =>
      obtain ⟨value, after⟩ := pair
      have hsame := action.steady state value after haction
      refine step (fun callers => ?_) (Parser.bind_of_ok haction) (fun hdepth => hsame ▸ hdepth)
        (h value after haction)
      simp only [Config.step, haction]

theorem enter {nesting : Nesting} {next : Unit → Code α} {f : Unit → Parser α}
    (h : ∀ deeper, state.depth < maxNesting → deeper.depth = state.depth + 1 →
      deeper.rest.length = state.rest.length → Follows frames (next ()) (f ()) good deeper) :
    Follows frames (Descent.enter nesting >>= next) (Parser.enter nesting >>= f) good state := by
  show Follows frames (.enter nesting (next ())) _ good state
  by_cases hopen : state.depth < maxNesting
  · have henter : Parser.enter nesting state =
        .ok ((), { state with depth := state.depth + 1 }) := by
      rw [Parser.enter, if_pos hopen]
    refine step (fun callers => ?_) (Parser.bind_of_ok henter) (fun _ => hopen)
      (h { state with depth := state.depth + 1 } hopen rfl rfl)
    simp only [Config.step]
    rw [if_pos (Nat.succ_le_of_lt hopen)]
  · have henter : Parser.enter nesting state = .error ⟨.tooDeep nesting, state.nextSpan⟩ := by
      rw [Parser.enter, if_neg hopen]
    have hstep {ρ : Type} (callers : Stack ρ α) :
        (Config.running (.enter nesting (next ())) callers state).step =
          .ended (.error ⟨.tooDeep nesting, state.nextSpan⟩)
            { state with depth := state.depth + 1 } := by
      simp only [Config.step]
      rw [if_neg (by omega)]
    exact stop hstep (Parser.bind_of_error henter) (Nat.le_refl _)

theorem leave {levels : Nat} {next : Unit → Code α} {f : Unit → Parser α}
    (hlevels : levels ≤ state.depth)
    (h : ∀ after, after.depth + levels = state.depth → after.rest.length = state.rest.length →
      Follows frames (next ()) (f ()) good after) :
    Follows frames (Descent.leave levels >>= next) (Parser.leave levels >>= f) good state := by
  show Follows frames (.leave levels (next ())) _ good state
  have hleave : Parser.leave levels state =
      .ok ((), { state with depth := state.depth - levels }) := rfl
  refine step (fun callers => ?_) (Parser.bind_of_ok hleave) (Nat.le_trans (Nat.sub_le _ _))
    (h { state with depth := state.depth - levels } (Nat.sub_add_cancel hlevels) rfl)
  simp only [Config.step]
  rw [if_pos hlevels]

/-- The end of a loop, which closes the levels that it holds. -/
theorem leaveHeld {held : Nat} {value : α} (hheld : held ≤ state.depth) :
    Follows frames (Descent.leave held >>= fun _ => pure value)
      (Parser.leave held >>= fun _ => pure value) (Restores held 0 state) state :=
  leave hheld fun _ hdepth hrest => result ⟨hdepth, Nat.le_of_eq hrest⟩

theorem peek {next : Option Kind → Code α} {f : Option Kind → Parser α}
    (hnil : Follows frames (next none) (f none) good state)
    (hcons : ∀ kind, 0 < state.rest.length →
      Follows frames (next (some kind)) (f (some kind)) good state) :
    Follows frames (Descent.perform .peek >>= next) (Parser.peek >>= f) good state := by
  refine perform .peek fun value after h => ?_
  obtain ⟨rfl, rfl⟩ := Prod.mk.inj (Except.ok.inj h)
  cases hrest : state.rest with
  | nil => exact hnil
  | cons token rest => exact hcons token.kind (by simp [hrest])

theorem peekToken {next : Option Token → Code α} {f : Option Token → Parser α}
    (hnil : Follows frames (next none) (f none) good state)
    (hcons : ∀ token, 0 < state.rest.length →
      Follows frames (next (some token)) (f (some token)) good state) :
    Follows frames (Descent.perform .peekToken >>= next) (Parser.peekToken >>= f) good state := by
  refine perform .peekToken fun value after h => ?_
  obtain ⟨rfl, rfl⟩ := Prod.mk.inj (Except.ok.inj h)
  cases hrest : state.rest with
  | nil => exact hnil
  | cons token rest => exact hcons token (by simp [hrest])

theorem isNext {kind : Kind} {next : Bool → Code α} {f : Bool → Parser α}
    (h : ∀ found, Follows frames (next found) (f found) good state) :
    Follows frames (Descent.perform (.isNext kind) >>= next) (Parser.isNext kind >>= f) good
      state := by
  refine perform (.isNext kind) fun value after hok => ?_
  obtain ⟨-, rfl⟩ := Prod.mk.inj (Except.ok.inj hok)
  exact h value

theorem lastSpan {next : Span → Code α} {f : Span → Parser α}
    (h : ∀ span, Follows frames (next span) (f span) good state) :
    Follows frames (Descent.perform .lastSpan >>= next) (Parser.lastSpan >>= f) good state := by
  refine perform .lastSpan fun value after hok => ?_
  obtain ⟨-, rfl⟩ := Prod.mk.inj (Except.ok.inj hok)
  exact h value

theorem placeFrom {first : Token} {next : Place → Code α} {f : Place → Parser α}
    (h : ∀ place, Follows frames (next place) (f place) good state) :
    Follows frames (Descent.placeFrom first >>= next) (Parser.placeFrom first >>= f) good state :=
  lastSpan fun span => h ⟨first.span.join span, first.line⟩

theorem skip {next : Unit → Code α} {f : Unit → Parser α} (hpos : 0 < state.rest.length)
    (h : ∀ after, after.depth = state.depth → after.rest.length + 1 = state.rest.length →
      Follows frames (next ()) (f ()) good after) :
    Follows frames (Descent.perform .skip >>= next) (Parser.skip >>= f) good state := by
  obtain ⟨token, rest, hrest⟩ := List.exists_cons_of_length_pos hpos
  refine perform .skip fun value after hok => h after ?_ ?_
  · exact Parser.steady_skip state value after hok
  · simp only [Action.reader, Parser.skip, hrest] at hok
    obtain ⟨-, rfl⟩ := Prod.mk.inj (Except.ok.inj hok)
    rw [hrest]
    rfl

theorem tokens_eat {kind : Kind} {found : Bool} {after : ParseState}
    (h : Parser.eat kind state = .ok (found, after)) :
    after.rest.length + found.toNat = state.rest.length := by
  obtain ⟨taken, hrest, hkinds⟩ := Parser.eat_reads kind _ state found after rfl h
  have htaken := congrArg List.length hkinds
  rw [List.length_map] at htaken
  rw [hrest, List.length_append, htaken]
  cases found <;> simp +arith

theorem eat {kind : Kind} {next : Bool → Code α} {f : Bool → Parser α}
    (htrue : ∀ after, after.depth = state.depth → after.rest.length + 1 = state.rest.length →
      Follows frames (next true) (f true) good after)
    (hfalse : Follows frames (next false) (f false) good state) :
    Follows frames (Descent.perform (.eat kind) >>= next) (Parser.eat kind >>= f) good state := by
  refine perform (.eat kind) fun found after hok => ?_
  cases found with
  | true => exact htrue after (Parser.steady_eat kind state true after hok) (tokens_eat hok)
  | false =>
      have hstays : after = state := by
        simp only [Action.reader, Parser.eat] at hok
        split at hok
        · split at hok
          · cases hok
          · exact (Prod.mk.inj (Except.ok.inj hok)).2.symm
        · exact (Prod.mk.inj (Except.ok.inj hok)).2.symm
      rw [hstays]
      exact hfalse

/-- An action that is the last one. -/
theorem performLast (action : Action α)
    (h : ∀ value after, action.reader state = .ok (value, after) → good after) :
    Follows frames (Descent.perform action) action.reader good state := by
  rw [← bind_pure action.reader]
  exact perform action fun value after hok => .result (h value after hok)

theorem unexpected {expected : Expected} :
    Follows frames (Descent.perform (.unexpected expected)) (Parser.unexpected expected : Parser α)
      good state :=
  performLast (.unexpected expected) fun _ _ hok => nomatch hok

theorem fail {fault : ParseFault} {span : Span} :
    Follows frames (Descent.perform (.fail fault span)) (Parser.fail fault span : Parser α) good
      state :=
  performLast (.fail fault span) fun _ _ hok => nomatch hok

theorem failThen {fault : ParseFault} {span : Span} {next : β → Code α} {f : β → Parser α} :
    Follows frames (Descent.perform (.fail fault span) >>= next) (Parser.fail fault span >>= f) good
      state :=
  perform (.fail fault span) fun _ _ hok => nomatch hok

theorem expect {kind : Kind} {next : Span → Code α} {f : Span → Parser α}
    (h : ∀ span after, after.depth = state.depth → after.rest.length + 1 = state.rest.length →
      Follows frames (next span) (f span) good after) :
    Follows frames (Descent.perform (.expect kind) >>= next) (Parser.expect kind >>= f) good
      state := by
  refine perform (.expect kind) fun span after hok => h span after ?_ ?_
  · exact Parser.steady_expect kind state span after hok
  · obtain ⟨found, between, heat, hrest⟩ := Parser.bind_eq_ok hok
    cases found with
    | false => exact nomatch hrest
    | true =>
        obtain ⟨-, rfl⟩ := Prod.mk.inj (Except.ok.inj hrest)
        exact tokens_eat heat

theorem tokens_identifier {name : String × Span} {after : ParseState}
    (h : Parser.identifier state = .ok (name, after)) :
    after.rest.length + 1 = state.rest.length := by
  have hreads : Parser.Reads (Parser.identifier >>= Pure.pure) fun kinds _ => kinds.length = 1 :=
    Parser.Reads.identifier fun _ _ => Parser.Reads.pure rfl
  have hpure : (Parser.identifier >>= Pure.pure) state = .ok (name, after) := by
    rw [bind_pure, h]
  obtain ⟨taken, hrest, hlength⟩ := hreads _ state name after rfl hpure
  rw [List.length_map] at hlength
  rw [hrest, List.length_append, hlength, Nat.add_comm]

theorem identifier {next : String × Span → Code α} {f : String × Span → Parser α}
    (h : ∀ name after, after.depth = state.depth → after.rest.length + 1 = state.rest.length →
      Follows frames (next name) (f name) good after) :
    Follows frames (Descent.perform .identifier >>= next) (Parser.identifier >>= f) good state :=
  perform .identifier fun name after hok =>
    h name after (Parser.steady_identifier state name after hok) (tokens_identifier hok)

end Follows

end FrozenScript.Descent
