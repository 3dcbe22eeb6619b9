import FrozenScript.Proofs.Machine.Surroundings
import FrozenScript.Proofs.Machine.ModuleCache

/-!
# More images that may be imported

A run that ends for another reason than an image that is missing ends in the same way if there are
more images that may be imported (`run_with_more_images`). A step that asks for an image either gets
the same one or ends the run.
-/

namespace FrozenScript

/-- Every image that may be imported is there under the same name. -/
def Linked (frozen more : Table String Image) : Prop :=
  ∀ name image, frozen.get? name = some image → more.get? name = some image

/-- A run ended for another reason than an image that is missing. -/
def FindsImages {α : Type} (result : Except RuntimeError α) : Prop :=
  ∀ error name, result = .error error → error.fault ≠ .noModule name

section

variable {machine : Machine} {frozen more : Table String Image} {sink : Sink}

/-- A step either does the same with more images, or fails because an image is missing. -/
theorem next_with_more_images (hlinked : Linked frozen more) :
    (∃ (outcome : Outcome) (after : Sink),
      (machine.amid sink frozen).next = outcome.amid after frozen ∧
      (machine.amid sink more).next = outcome.amid after more) ∨
    ∃ after error name, (machine.amid sink frozen).next = .failed after error ∧
      error.fault = .noModule name := by
  cases next_asks machine with
  | nothing h => exact .inl ⟨_, sink, h sink frozen, h sink more⟩
  | room line following stopped error herror h =>
      have hfrozen := h sink frozen
      have hmore := h sink more
      cases hfits : sink.fits line.size with
      | true =>
          rw [hfits, if_pos rfl] at hfrozen hmore
          exact .inl ⟨.running following, sink.write line, hfrozen, hmore⟩
      | false =>
          rw [hfits, if_neg Bool.false_ne_true] at hfrozen hmore
          exact .inl ⟨.failed stopped error, sink.write line, hfrozen, hmore⟩
  | image name answer stopped error herror hnone h =>
      have hfrozen := h sink frozen
      have hmore := h sink more
      cases hfound : frozen.get? name with
      | none =>
          rw [hfound, hnone] at hfrozen
          exact .inr ⟨_, error, name, hfrozen, herror⟩
      | some image =>
          rw [hfound] at hfrozen
          rw [hlinked name image hfound] at hmore
          exact .inl ⟨_, sink, hfrozen, hmore⟩

theorem machine_run_with_more_images {steps : Nat} {after : Interpreter}
    {result : Except RuntimeError Unit} (hlinked : Linked frozen more)
    (hrun : (machine.amid sink frozen).run steps = some (after, result))
    (himages : FindsImages result) :
    (machine.amid sink more).run steps = some ({ after with frozen := more }, result) := by
  induction steps generalizing machine sink with
  | zero => exact nomatch hrun
  | succ steps ih =>
  rw [Machine.run] at hrun ⊢
  obtain ⟨outcome, following, hnext, hmore⟩ | ⟨stopped, error, name, hnext, hfault⟩ :=
    next_with_more_images hlinked
  · rw [hnext] at hrun
    rw [hmore]
    cases outcome with
    | running machine => exact ih hrun
    | finished ended =>
        obtain ⟨rfl, rfl⟩ := Prod.mk.inj (Option.some.inj hrun)
        rfl
    | failed ended error =>
        obtain ⟨rfl, rfl⟩ := Prod.mk.inj (Option.some.inj hrun)
        rfl
  · rw [hnext] at hrun
    obtain ⟨-, rfl⟩ := Prod.mk.inj (Option.some.inj hrun)
    exact absurd hfault (himages error name rfl)

end

/-- If a run ends for another reason than an image that is missing, the same run with more images
has the same result and leaves the same interpreter behind: the same output, the same loaded modules
and the same variables. -/
theorem run_with_more_images {interpreter after : Interpreter} {more : Table String Image}
    {steps : Nat} {name : String} {unit : CodeUnit} {result : Except RuntimeError ScriptModule}
    (hlinked : Linked interpreter.frozen more)
    (hrun : interpreter.run steps name unit = some (after, result))
    (himages : FindsImages result) :
    { interpreter with frozen := more }.run steps name unit =
      some ({ after with frozen := more }, result) := by
  rw [run_eq_map] at hrun
  obtain ⟨⟨last, outcome⟩, hmachine, heq⟩ := Option.map_eq_some_iff.mp hrun
  obtain ⟨rfl, rfl⟩ := Prod.mk.inj heq
  have hown : ((interpreter.machine name unit).amid interpreter.sink interpreter.frozen).run
      steps = some (last, outcome) := hmachine
  have houtcome : FindsImages outcome := fun error missing herror =>
    himages error missing (congrArg (Except.map _) herror)
  exact congrArg (Option.map _) (machine_run_with_more_images hlinked hown houtcome)

/-- A script imports a module that prints, and then an assertion fails. It does the same if another
module may be imported too. -/
theorem run_with_more_images_assertion :
    let greet : CodeUnit :=
      ⟨"<module>", "greet", [], [.text "hi"], #["print"],
        #[.loadName 0, .loadConst 0, .call 1, .giveBack], #[1, 1, 1, 1]⟩
    let main : CodeUnit :=
      ⟨"<module>", "main", [], [], #["greet"], #[.importName 0, .raiseAssert false], #[1, 2]⟩
    let frozen := [("greet", Image.ofUnit greet)]
    let more := ("other", Image.ofUnit main) :: frozen
    ∃ after error, { frozen : Interpreter }.run 6 "main" main = some (after, .error error) ∧
      error.fault = .assertion none ∧ after.sink.written = "hi\n".toUTF8 ∧
      { frozen := more : Interpreter }.run 6 "main" main =
        some ({ after with frozen := more }, .error error) := by
  intro greet main frozen more
  have hlinked : Linked { frozen : Interpreter }.frozen more := by
    intro name image hfound
    by_cases hname : "greet" = name
    · subst hname
      exact hfound
    · exact nomatch hfound.symm.trans (if_neg hname)
  have hruns : ({ frozen : Interpreter }.run 6 "main" main).map (fun ending =>
      (match ending.2 with | .error error => some error.fault | .ok _ => none,
        ending.1.sink.written)) = some (some (.assertion none), "hi\n".toUTF8) := by
    decide +kernel
  obtain ⟨⟨after, result⟩, hrun, hending⟩ := Option.map_eq_some_iff.mp hruns
  obtain ⟨hfault, hwritten⟩ := Prod.mk.inj hending
  cases result with
  | ok module => exact nomatch hfault
  | error error =>
  have hfault : error.fault = .assertion none := Option.some.inj hfault
  have himages : FindsImages (.error error : Except RuntimeError ScriptModule) := by
    rintro _ name ⟨⟩ hmissing
    exact nomatch hfault.symm.trans hmissing
  have hmore := run_with_more_images hlinked hrun himages
  exact ⟨after, error, hrun, hfault, hwritten, hmore⟩

end FrozenScript
