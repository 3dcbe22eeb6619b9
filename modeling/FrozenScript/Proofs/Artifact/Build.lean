import FrozenScript.Artifact.Build
import FrozenScript.Proofs.Artifact.Buffer
import FrozenScript.Proofs.Artifact.FileTree

/-!
# A build leaves no partial artifact

The main statement, `build_leaves_nothing_partial`, lists how a build may end and what file tree it
then leaves. Up to the opening of the output every failure leaves the tree as it was. A complete
output holds the whole text, and an output that was cut is gone, unless it is a device, which stays.
-/

namespace FrozenScript

namespace FileTree

/-! ## Inputs -/

theorem checkLength_eq_ok_iff {path : String} {expected : Nat} {found source : ByteArray} :
    checkLength path expected found = .ok source ↔ found = source ∧ source.size = expected := by
  unfold checkLength
  split
  next hsize =>
    rw [Except.ok.injEq]
    exact ⟨fun heq => ⟨heq, heq ▸ hsize⟩, And.left⟩
  next hsize => exact ⟨nofun, fun ⟨heq, hother⟩ => absurd hother (heq ▸ hsize)⟩

/-- A source that is loaded has the length that was told, and there is memory for it. -/
theorem load_eq_ok_iff {tree : FileTree} {path : String} {source : ByteArray} :
    tree.load path = .ok source ↔
      ∃ location node, tree.locate path = some location ∧ tree.node? location = some node ∧
        tree.length? location node = some source.size ∧
        bufferSize source.size ≤ min tree.memory longestBuffer ∧
        node.read? source.size = some source := by
  constructor
  · intro h
    unfold load at h
    cases hlocation : tree.locate path with
    | none => rw [hlocation] at h; cases h
    | some location =>
    cases hnode : tree.node? location with
    | none => simp only [hlocation, hnode] at h; cases h
    | some node =>
    cases hlength : tree.length? location node with
    | none => simp only [hlocation, hnode, hlength] at h; cases h
    | some expected =>
    simp only [hlocation, hnode, hlength] at h
    by_cases hmemory : min tree.memory longestBuffer < bufferSize expected
    · rw [if_pos hmemory] at h
      cases h
    rw [if_neg hmemory] at h
    cases hread : node.read? expected with
    | none => simp only [hread] at h; cases h
    | some found =>
    simp only [hread] at h
    obtain ⟨rfl, rfl⟩ := checkLength_eq_ok_iff.mp h
    exact ⟨location, node, rfl, hnode, hlength, Nat.le_of_not_lt hmemory, hread⟩
  · rintro ⟨location, node, hlocation, hnode, hlength, hmemory, hread⟩
    simp only [load, hlocation, hnode, hlength, hread]
    rw [if_neg (Nat.not_lt.mpr hmemory)]
    exact checkLength_eq_ok_iff.mpr ⟨rfl, rfl⟩

/-! ## Outputs -/

/-- How bringing some bytes to an output ends, and what tree it leaves. -/
inductive Delivers (tree : FileTree) (path : String) (bytes : ByteArray) :
    Except BuildError Unit × FileTree → Prop where
  /-- The path leads nowhere or to a directory. -/
  | unopened
      (hopen : ∀ location, tree.locate path = some location →
        tree.node? location = some .directory) :
      Delivers tree path bytes (.error (.openOutput path), tree)
  /-- A file holds exactly the bytes. -/
  | file {location : Location} {after : FileTree} (hpath : tree.locate path = some location)
      (hplace : TakesFile (tree.node? location))
      (hfits : ({ room := tree.room } : Sink).fits bytes.size = true)
      (hafter : tree.Differs after location (some (.file bytes))) :
      Delivers tree path bytes (.ok (), after)
  /-- A device was given exactly the bytes. -/
  | device {location : Location} {sink : Sink} {after : FileTree}
      (hpath : tree.locate path = some location)
      (hplace : tree.node? location = some (.device sink))
      (hfits : sink.fits bytes.size = true)
      (hafter : tree.Differs after location (some (.device (sink.write bytes)))) :
      Delivers tree path bytes (.ok (), after)
  /-- The bytes do not fit into a file, and the file is gone. -/
  | cutFile {location : Location} {after : FileTree} (hpath : tree.locate path = some location)
      (hplace : TakesFile (tree.node? location))
      (hfits : ({ room := tree.room } : Sink).fits bytes.size = false)
      (hafter : tree.Differs after location none) :
      Delivers tree path bytes (.error (.writeOutput path), after)
  /-- A device does not take all of the bytes, and it is still there. -/
  | cutDevice {location : Location} {sink : Sink} {after : FileTree}
      (hpath : tree.locate path = some location)
      (hplace : tree.node? location = some (.device sink))
      (hfits : sink.fits bytes.size = false)
      (hafter : tree.Differs after location (some (.device (sink.write bytes)))) :
      Delivers tree path bytes (.error (.writeOutput path), after)

/-- Emitting an array text delivers its bytes. -/
theorem emit_delivers (tree : FileTree) (path module : String) (image : Image) :
    tree.Delivers path (ArrayText.render module image).toUTF8 (tree.emit path module image) := by
  unfold emit
  generalize (ArrayText.render module image).toUTF8 = bytes
  obtain ⟨hcreate, hopen⟩ | ⟨location, hpath, ⟨sink, hplace, hcreate⟩ | ⟨hplace, hcreate⟩⟩ :=
    tree.create_cases path
  · rw [hcreate]
    exact .unopened hopen
  · obtain ⟨after, hwrite, hafter⟩ := write_device hplace bytes
    rw [hcreate]
    simp only [hwrite]
    cases hfits : sink.fits bytes.size with
    | true => exact .device hpath hplace hfits hafter
    | false =>
        have hdiscard : after.discard path = after :=
          discard_device ((hafter.locate path).trans hpath) hafter.here
        simp only [release, hdiscard]
        exact .cutDevice hpath hplace hfits hafter
  · have hopened : tree.Differs { tree with nodes := tree.nodes.set location (.file .empty) }
        location (some (.file .empty)) := differs_set hplace.noDirectory nofun
    rw [hcreate]
    generalize ({ tree with nodes := tree.nodes.set location (.file .empty) } : FileTree) = opened
      at hopened
    obtain ⟨after, hwrite, hafter⟩ := write_file hopened.here bytes
    have hwritten := hopened.trans hafter
    rw [hopened.room] at hwrite hwritten
    simp only [hwrite]
    cases hfits : ({ room := tree.room } : Sink).fits bytes.size with
    | true =>
        rw [Sink.written_write_of_fits hfits, ByteArray.empty_append] at hwritten
        exact .file hpath hplace hfits hwritten
    | false =>
        have hgone := discard_file ((hwritten.locate path).trans hpath) hwritten.here
        exact .cutFile hpath hplace hfits (hwritten.trans hgone)

/-- Write the pieces of an array text to an output file through a buffer. -/
def emitBuffered (tree : FileTree) (path : String) (capacity : Nat) (pieces : List ByteArray) :
    Except BuildError Unit × FileTree :=
  match tree.create path with
  | none => (.error (.openOutput path), tree)
  | some (location, tree) =>
    let (complete, tree) := tree.writeBuffered location capacity pieces
    (if complete then .ok () else .error (.writeOutput path), tree.release path complete)

/-- Emitting an array text does not depend on how its text is cut into pieces and buffered. -/
theorem emitBuffered_eq_emit {module : String} {image : Image} {pieces : List ByteArray}
    (h : joined pieces = (ArrayText.render module image).toUTF8) (tree : FileTree) (path : String)
    (capacity : Nat) : tree.emitBuffered path capacity pieces = tree.emit path module image := by
  unfold emitBuffered emit
  cases tree.create path with
  | none => rfl
  | some place =>
      obtain ⟨location, opened⟩ := place
      dsimp only
      rw [writeBuffered_eq_write, h]

end FileTree

/-! ## Builds -/

/-- How a build ends and what file tree it leaves, stage by stage. -/
inductive BuildEnds (settings : Settings) (request : BuildRequest) (tree : FileTree) :
    Except BuildError Unit × FileTree → Prop where
  | badName {error : BuildError} (hlabel : Label.ofModule request.module = .error error) :
      BuildEnds settings request tree (.error error, tree)
  | badInput {label : Label} {error : BuildError} (hlabel : Label.ofModule request.module = .ok label)
      (hload : tree.load request.input = .error error) :
      BuildEnds settings request tree (.error error, tree)
  | badSource {label : Label} {source : ByteArray} {error : CompileError}
      (hlabel : Label.ofModule request.module = .ok label)
      (hload : tree.load request.input = .ok source)
      (hcompile : compileBytes label.text settings.optimize source.data.toList = .error error) :
      BuildEnds settings request tree (.error (.source error), tree)
  | badVersion {label : Label} {source : ByteArray} {unit : CodeUnit} {fault : Image.Fault}
      (hlabel : Label.ofModule request.module = .ok label)
      (hload : tree.load request.input = .ok source)
      (hcompile : compileBytes label.text settings.optimize source.data.toList = .ok unit)
      (hencode : Image.encode settings.formatVersion unit = .error fault) :
      BuildEnds settings request tree (.error (.encoding request.module fault), tree)
  /-- The image is brought to the output, completely or not. -/
  | delivered {label : Label} {source : ByteArray} {unit : CodeUnit} {image : Image}
      {outcome : Except BuildError Unit × FileTree}
      (hlabel : Label.ofModule request.module = .ok label)
      (hload : tree.load request.input = .ok source)
      (hcompile : compileBytes label.text settings.optimize source.data.toList = .ok unit)
      (hencode : Image.encode settings.formatVersion unit = .ok image)
      (hdeliver : tree.Delivers request.output (ArrayText.render request.module image).toUTF8
        outcome) :
      BuildEnds settings request tree outcome

section

variable {settings : Settings} {request : BuildRequest} {tree : FileTree}

/-- A build without an image changes nothing. -/
theorem build_of_error {error : BuildError} (h : imageOf settings request tree = .error error) :
    build settings request tree = (.error error, tree) := by
  rw [build, h]

/-- Without a label there is no image. -/
theorem imageOf_of_badName {error : BuildError} (h : Label.ofModule request.module = .error error) :
    imageOf settings request tree = .error error := by
  rw [imageOf_eq, h]
  rfl

/-- Behind the label of a module the image is that of what was loaded. -/
theorem imageOf_of_load {label : Label} {loaded : Except BuildError ByteArray}
    (hlabel : Label.ofModule request.module = .ok label)
    (hload : tree.load request.input = loaded) :
    imageOf settings request tree = loaded >>= imageOfSource settings request.module label := by
  rw [imageOf_eq, hlabel, hload]
  rfl

theorem imageOfSource_eq {module : String} {label : Label} {source : ByteArray}
    {result : Except CompileError CodeUnit}
    (h : compileBytes label.text settings.optimize source.data.toList = result) :
    imageOfSource settings module label source =
      result.mapError .source >>= encodeModule settings module := by
  rw [imageOfSource, compileModule, h]

/-- Behind the label, the source and the unit of a module the image is what encoding makes of the
unit. -/
theorem imageOf_of_compileBytes {label : Label} {source : ByteArray} {unit : CodeUnit}
    (hlabel : Label.ofModule request.module = .ok label)
    (hload : tree.load request.input = .ok source)
    (hcompile : compileBytes label.text settings.optimize source.data.toList = .ok unit) :
    imageOf settings request tree =
      (Image.encode settings.formatVersion unit).mapError (.encoding request.module) := by
  have hsource : imageOfSource settings request.module label source = _ := imageOfSource_eq hcompile
  exact (imageOf_of_load hlabel hload).trans hsource

/-- A build goes through its stages in order, up to the first failure. -/
theorem build_ends (settings : Settings) (request : BuildRequest) (tree : FileTree) :
    BuildEnds settings request tree (build settings request tree) := by
  cases hlabel : Label.ofModule request.module with
  | error error =>
      rw [build_of_error (imageOf_of_badName hlabel)]
      exact .badName hlabel
  | ok label =>
  cases hload : tree.load request.input with
  | error error =>
      have himage : imageOf settings request tree = .error error := imageOf_of_load hlabel hload
      rw [build_of_error himage]
      exact .badInput hlabel hload
  | ok source =>
  cases hcompile : compileBytes label.text settings.optimize source.data.toList with
  | error error =>
      have hsource : imageOfSource settings request.module label source = .error (.source error) :=
        imageOfSource_eq hcompile
      have himage : imageOf settings request tree = .error (.source error) :=
        (imageOf_of_load hlabel hload).trans hsource
      rw [build_of_error himage]
      exact .badSource hlabel hload hcompile
  | ok unit =>
  have hunit : imageOf settings request tree =
      (Image.encode settings.formatVersion unit).mapError (.encoding request.module) :=
    imageOf_of_compileBytes hlabel hload hcompile
  cases hencode : Image.encode settings.formatVersion unit with
  | error fault =>
      rw [hencode] at hunit
      rw [build_of_error hunit]
      exact .badVersion hlabel hload hcompile hencode
  | ok image =>
      rw [hencode] at hunit
      rw [build, hunit]
      exact .delivered hlabel hload hcompile hencode (tree.emit_delivers _ _ _)

end

/-- A build never leaves a partial artifact. It ends in one of the ways of `BuildEnds`: whatever
fails before the output is open leaves every file as it was, a complete output holds exactly the
text, and a file that could not be written completely is gone. A bad module name is reported
whatever the input is. None of this depends on the pieces in which the text is written or on the
buffer that they go through. -/
theorem build_leaves_nothing_partial (settings : Settings) (request : BuildRequest)
    (tree : FileTree) :
    BuildEnds settings request tree (build settings request tree) ∧
    (∀ error, Label.ofModule request.module = .error error →
      ∀ other : FileTree, build settings request other = (.error error, other)) ∧
    ∀ (image : Image) (capacity : Nat) (pieces : List ByteArray),
      imageOf settings request tree = .ok image →
      joined pieces = (ArrayText.render request.module image).toUTF8 →
        tree.emitBuffered request.output capacity pieces = build settings request tree := by
  refine ⟨build_ends settings request tree, fun error hlabel other => ?_, ?_⟩
  · exact build_of_error (imageOf_of_badName hlabel)
  · intro image capacity pieces himage hpieces
    rw [FileTree.emitBuffered_eq_emit hpieces, build, himage]

/-- A tree with a source, an output from before, and room for fifty bytes in a file. -/
def crampedTree : FileTree where
  nodes := [(["in.py"], .file "x = 1\n".toUTF8), (["out.h"], .file "before".toUTF8)]
  workingDirectory := []
  room := some 50

/-- An array text that does not fit is not left behind, also if it goes through a buffer. -/
theorem build_leaves_nothing_partial_cramped :
    let request : BuildRequest := { input := "in.py", output := "out.h", module := "m" }
    ∃ image, imageOf {} request crampedTree = .ok image ∧
      let (result, after) := crampedTree.emitBuffered "out.h" 8192
        [(ArrayText.render "m" image).toUTF8]
      result.isOk = false ∧ (after.at? "out.h").isNone = true := by
  intro request
  have hok : (imageOf {} request crampedTree).isOk = true := by decide +kernel
  cases himage : imageOf {} request crampedTree with
  | error error => rw [himage] at hok; exact nomatch hok
  | ok image =>
      refine ⟨image, rfl, ?_⟩
      rw [(build_leaves_nothing_partial {} request crampedTree).2.2 image 8192 _ himage
        ByteArray.append_empty]
      exact ⟨by decide +kernel, by decide +kernel⟩

end FrozenScript
