import FrozenScript.Artifact.FileTree

/-!
# What changes in a file tree

Opening an output, writing to it and letting go of it each change what stands at one location and
nothing else (`Differs`). None of them makes or removes a directory, so every path leads to the same
location before and after.
-/

namespace FrozenScript.FileTree

/-- A tree differs from another one at most in what stands at a location, and every path leads to
the same location in both. What is told of lengths, and what memory there is, stays the same. -/
structure Differs (tree after : FileTree) (location : Location) (found : Option Node) : Prop where
  here : after.node? location = found
  elsewhere : ∀ other, other ≠ location → after.node? other = tree.node? other
  locate : ∀ path, after.locate path = tree.locate path
  room : after.room = tree.room
  told : after.told = tree.told
  memory : after.memory = tree.memory

/-- No directory stands at a location. -/
def NoDirectory (found : Option Node) : Prop :=
  found ≠ some .directory

section

variable {tree after : FileTree} {location : Location} {found : Option Node}

theorem node?_nil (tree : FileTree) : tree.node? [] = some .directory :=
  rfl

theorem node?_of_ne_nil (tree : FileTree) (h : location ≠ []) :
    tree.node? location = tree.nodes.get? location := by
  unfold node?
  rw [if_neg (by simpa using h)]

theorem ne_nil_of_noDirectory (h : NoDirectory (tree.node? location)) : location ≠ [] := by
  rintro rfl
  exact h (node?_nil tree)

theorem isDirectory_iff : tree.isDirectory location = true ↔ tree.node? location = some .directory := by
  unfold isDirectory
  split
  next heq => simp [heq]
  next hnone => exact iff_of_false (by simp) hnone

theorem follow_congr (h : ∀ place, after.isDirectory place = tree.isDirectory place)
    (names : List String) (start : Location) : after.follow start names = tree.follow start names := by
  induction names generalizing start with
  | nil => rfl
  | cons name rest ih =>
      unfold follow
      rw [h]
      split
      · exact ih _
      · rfl

theorem locate_congr (h : ∀ place, after.isDirectory place = tree.isDirectory place)
    (hworking : after.workingDirectory = tree.workingDirectory) (path : String) :
    after.locate path = tree.locate path := by
  unfold locate
  rw [hworking]
  simp only [follow_congr h]

/-- Changing what stands at a location, from something that is no directory to something that is
none, changes nothing else. -/
theorem differs_of_nodes {nodes : Table Location Node} (h : NoDirectory (tree.node? location))
    (hfound : NoDirectory found)
    (hnodes : ∀ other, nodes.get? other = if location = other then found else tree.nodes.get? other) :
    tree.Differs { tree with nodes } location found := by
  have hroot := ne_nil_of_noDirectory h
  have hnode : ∀ other, node? { tree with nodes } other =
      if location = other then found else tree.node? other := by
    intro other
    by_cases hother : other = []
    · subst hother
      rw [if_neg hroot]
      rfl
    · rw [node?_of_ne_nil _ hother, node?_of_ne_nil tree hother]
      exact hnodes other
  have hdirectory : ∀ place, isDirectory { tree with nodes } place = tree.isDirectory place := by
    intro place
    rw [Bool.eq_iff_iff, isDirectory_iff, isDirectory_iff, hnode]
    split
    next heq =>
      subst heq
      exact iff_of_false hfound h
    next => rfl
  refine ⟨?_, fun other hother => ?_, locate_congr hdirectory rfl, rfl, rfl, rfl⟩
  · rw [hnode, if_pos rfl]
  · rw [hnode, if_neg (Ne.symm hother)]

theorem Differs.at? (h : tree.Differs after location found) {path : String}
    (hpath : tree.locate path = some location) : after.at? path = found := by
  unfold FileTree.at?
  rw [h.locate, hpath]
  exact h.here

/-- Of two changes of what stands at a location the second one counts. -/
theorem Differs.trans {last : FileTree} {found' : Option Node} (h : tree.Differs after location found)
    (h' : after.Differs last location found') : tree.Differs last location found' where
  here := h'.here
  elsewhere other hother := (h'.elsewhere other hother).trans (h.elsewhere other hother)
  locate path := (h'.locate path).trans (h.locate path)
  room := h'.room.trans h.room
  told := h'.told.trans h.told
  memory := h'.memory.trans h.memory

/-- What stands at a location is replaced by a file or a device. -/
theorem differs_set (h : NoDirectory (tree.node? location)) {node : Node}
    (hnode : NoDirectory (some node)) :
    tree.Differs { tree with nodes := tree.nodes.set location node } location (some node) :=
  differs_of_nodes h hnode fun other => Table.get?_set tree.nodes location other node

/-- What stands at a location is removed. -/
theorem differs_erase (h : NoDirectory (tree.node? location)) :
    tree.Differs { tree with nodes := tree.nodes.erase location } location none :=
  differs_of_nodes h nofun fun other => Table.get?_erase tree.nodes location other

end

/-! ## Outputs -/

/-- A place for a file: nothing is there, or a file, which will be replaced. -/
def TakesFile (found : Option Node) : Prop :=
  found = none ∨ ∃ contents, found = some (.file contents)

theorem TakesFile.noDirectory {found : Option Node} (h : TakesFile found) : NoDirectory found := by
  obtain rfl | ⟨contents, rfl⟩ := h
  · exact nofun
  · exact nofun

section

variable {tree opened : FileTree} {location : Location} {path : String}

/-- Opening a path fails if it leads nowhere or to a directory. It leaves a device alone and makes
an empty file at any other place. -/
theorem create_cases (tree : FileTree) (path : String) :
    (tree.create path = none ∧
      ∀ location, tree.locate path = some location → tree.node? location = some .directory) ∨
    ∃ location, tree.locate path = some location ∧
      ((∃ sink, tree.node? location = some (.device sink) ∧
          tree.create path = some (location, tree)) ∨
        (TakesFile (tree.node? location) ∧ tree.create path =
          some (location, { tree with nodes := tree.nodes.set location (.file .empty) }))) := by
  unfold create
  cases hpath : tree.locate path with
  | none => exact .inl ⟨rfl, nofun⟩
  | some location =>
      simp only [Option.bind_eq_bind, Option.bind_some]
      match hnode : tree.node? location with
      | some .directory =>
          refine .inl ⟨rfl, fun other hother => ?_⟩
          obtain rfl := Option.some.inj hother
          exact hnode
      | some (.device sink) => exact .inr ⟨location, rfl, .inl ⟨sink, hnode, rfl⟩⟩
      | some (.file contents) => exact .inr ⟨location, rfl, .inr ⟨hnode ▸ .inr ⟨_, rfl⟩, rfl⟩⟩
      | none => exact .inr ⟨location, rfl, .inr ⟨hnode ▸ .inl rfl, rfl⟩⟩

/-- Writing to a file appends the bytes that there is room for. -/
theorem write_file {contents : ByteArray} (h : tree.node? location = some (.file contents))
    (bytes : ByteArray) :
    ∃ after, tree.write location bytes =
        (({ written := contents, room := tree.room } : Sink).fits bytes.size, after) ∧
      tree.Differs after location (some (.file
        (({ written := contents, room := tree.room } : Sink).write bytes).written)) := by
  unfold write
  rw [h]
  have hnode : NoDirectory (tree.node? location) := by
    rw [h]
    exact nofun
  exact ⟨_, rfl, differs_set hnode nofun⟩

/-- Writing to a device gives its sink the bytes. -/
theorem write_device {sink : Sink} (h : tree.node? location = some (.device sink))
    (bytes : ByteArray) :
    ∃ after, tree.write location bytes = (sink.fits bytes.size, after) ∧
      tree.Differs after location (some (.device (sink.write bytes))) := by
  unfold write
  rw [h]
  have hnode : NoDirectory (tree.node? location) := by
    rw [h]
    exact nofun
  exact ⟨_, rfl, differs_set hnode nofun⟩

/-- Discarding a path removes the file that it leads to. -/
theorem discard_file {contents : ByteArray} (hpath : tree.locate path = some location)
    (h : tree.node? location = some (.file contents)) :
    tree.Differs (tree.discard path) location none := by
  unfold discard
  simp only [hpath, h]
  refine differs_erase ?_
  rw [h]
  exact nofun

/-- Discarding a path leaves a device alone. -/
theorem discard_device {sink : Sink} (hpath : tree.locate path = some location)
    (h : tree.node? location = some (.device sink)) : tree.discard path = tree := by
  unfold discard
  simp only [hpath, h]

end

end FrozenScript.FileTree
