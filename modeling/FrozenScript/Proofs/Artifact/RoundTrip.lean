import FrozenScript.Machine.Run
import FrozenScript.Proofs.Artifact.ArrayText
import FrozenScript.Proofs.Artifact.Build
import FrozenScript.Proofs.Image.Canonical

/-!
# A frozen module is its source

The main statement, `build_round_trip`, follows a module from its source to an array text and back.
The bytes in the output decode to the unit that the source compiles to, so running them is running
that unit.
-/

namespace FrozenScript

open Image

/-- A name that can be part of an identifier holds letters, digits and underscores only. -/
theorem not_mem_of_isModuleName {module : String} (h : isModuleName module = true) {c : Char}
    (hc : (c.isAlphanum || c == '_') = false) : c ∉ module.toList := by
  simp only [isModuleName, Bool.and_eq_true, List.all_eq_true] at h
  exact fun hmem => Bool.false_ne_true (hc.symm.trans (h.2 c hmem))

/-- A label is found only for its own module. -/
theorem Label.module_of_ofModule {module : String} {label : Label}
    (h : Label.ofModule module = .ok label) : label.module = module := by
  unfold Label.ofModule at h
  split at h
  next hname =>
    split at h
    next hshort => exact (congrArg Label.module (Except.ok.inj h)).symm
    next => exact nomatch h
  next => exact nomatch h

/-- Only the supported format is written, and what is written is read back if it is no longer than
memory can be. -/
theorem Image.decode_of_encode {version : UInt32} {unit : CodeUnit} {image : Image}
    (h : encode version unit = .ok image) (hlength : image.length < UInt64.size) :
    decode image = .ok unit := by
  unfold encode at h
  split at h
  next =>
    obtain rfl := Except.ok.inj h
    simp only [ofUnit, List.length_append] at hlength
    have hfits : unit.Fits :=
      unit_fits_of_length_lt unit (Nat.lt_of_le_of_lt (Nat.le_add_left ..) hlength)
    exact decode_eq_ok_iff.mpr ⟨hfits, List.prefix_refl _⟩
  next => cases h

/-- What a successful build puts into its output is read back as the unit that its source compiles
to, if the image fits into memory. Hence a run of those bytes ends like a run of that unit, from any
interpreter, with any table of frozen modules and after as many steps. -/
theorem build_round_trip {settings : Settings} {request : BuildRequest} {tree after : FileTree}
    (hbuild : build settings request tree = (.ok (), after))
    (hlength : ∀ image, imageOf settings request tree = .ok image → image.length < UInt64.size) :
    ∃ source unit text image,
      tree.load request.input = .ok source ∧
      compileBytes (labelText request.module) settings.optimize source.data.toList = .ok unit ∧
      tree.Delivers request.output text.toUTF8 (.ok (), after) ∧
      ArrayText.read? text = some image ∧
      decode image = .ok unit ∧
      ∀ (interpreter : Interpreter) (steps : Nat),
        interpreter.runImage steps request.module image =
          interpreter.run steps request.module unit := by
  have hends := build_ends settings request tree
  rw [hbuild] at hends
  cases hends with
  | @delivered label source unit image _ hlabel hload hcompile hencode hdeliver =>
    have himage : imageOf settings request tree = .ok image := by
      rw [imageOf_of_compileBytes hlabel hload hcompile, hencode]
      rfl
    have hmodule := Label.module_of_ofModule hlabel
    have hbrace : '\x7b' ∉ request.module.toList :=
      hmodule ▸ not_mem_of_isModuleName label.isName (by decide)
    have hdecode := decode_of_encode hencode (hlength image himage)
    rw [Label.text, hmodule] at hcompile
    exact ⟨source, unit, _, image, hload, hcompile, hdeliver, ArrayText.read?_render hbrace image,
      hdecode, fun interpreter steps => interpreter.runImage_of_decode hdecode steps _⟩

/-- A tree with a source and room for any output. -/
def roomyTree : FileTree where
  nodes := [(["in.py"], .file "x = 'é'\n".toUTF8)]
  workingDirectory := []

/-- A text that is not plain comes back from the output of a build. -/
theorem build_round_trip_accent :
    let request : BuildRequest := { input := "in.py", output := "out.h", module := "m" }
    ∃ after, build {} request roomyTree = (.ok (), after) ∧ ∃ text image unit,
      roomyTree.Delivers "out.h" text.toUTF8 (.ok (), after) ∧
      ArrayText.read? text = some image ∧ decode image = .ok unit := by
  intro request
  have hok : (build {} request roomyTree).1.isOk = true := by decide +kernel
  have hshort : (imageOf {} request roomyTree).toOption.all (·.length < UInt64.size) = true := by
    decide +kernel
  have hlength : ∀ image, imageOf {} request roomyTree = .ok image →
      image.length < UInt64.size := by
    intro image himage
    rw [himage] at hshort
    exact of_decide_eq_true hshort
  cases hbuild : build {} request roomyTree with
  | mk result after =>
  rw [hbuild] at hok
  cases result with
  | error error => exact nomatch hok
  | ok =>
    obtain ⟨-, unit, text, image, -, -, hdeliver, hread, hdecode, -⟩ :=
      build_round_trip hbuild hlength
    exact ⟨after, rfl, text, image, unit, hdeliver, hread, hdecode⟩

end FrozenScript
