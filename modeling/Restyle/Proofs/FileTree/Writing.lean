import Restyle.FileTree

/-!
Contract: directories can be made and files written where nothing is in the way.

Owns: `FileTree.trail`, the places that names lead to one after the other;
`FileTree.Furnished`, a tree with further directories and the same files; that
`makeDirectories` succeeds where no file stands on the trail, that `write` does
where no directory stands at its end, and which files can be read before and after;
`FileTree.Advanced`, a tree that has kept what it had but for some places.
-/

namespace Restyle.FileTree

/-- The places that names lead to from a place, one after the other. -/
def trail : Place → List String → List Place
  | _, [] => []
  | place, name :: rest => step place name :: trail (step place name) rest

/-- The place that names lead to in the end. -/
def goal (place : Place) (names : List String) : Place :=
  names.foldl step place

/-- A tree with the same files and further directories. -/
structure Furnished (tree after : FileTree) (places : List Place) : Prop where
  files : after.files = tree.files
  current : after.current = tree.current
  directories : ∀ place, after.hasDirectory place ↔ tree.hasDirectory place ∨ place ∈ places

theorem Furnished.refl
    {tree : FileTree}
    {places : List Place}
    (there : ∀ place ∈ places, tree.hasDirectory place) :
    Furnished tree tree places :=
  ⟨rfl, rfl, fun place => ⟨.inl, fun either => either.elim id (there place)⟩⟩

theorem Furnished.contents?
    {tree after : FileTree}
    {places : List Place}
    (furnished : Furnished tree after places)
    (place : Place) :
    after.contents? place = tree.contents? place := by
  rw [FileTree.contents?, furnished.files]
  rfl

theorem Furnished.origin
    {tree after : FileTree}
    {places : List Place}
    (furnished : Furnished tree after places)
    (path : Path) :
    after.origin path = tree.origin path := by
  rw [FileTree.origin, furnished.current]
  rfl

/-! ## Walking -/

private theorem trail_append (place : Place) (names : List String) (name : String) :
    trail place (names ++ [name]) = trail place names ++ [goal place (names ++ [name])] := by
  induction names generalizing place with
  | nil => rfl
  | cons first rest inductionHypothesis =>
    exact congrArg (step place first :: ·) (inductionHypothesis (step place first))

/-- Directories lead on to the end of the trail. -/
theorem walk_of_directories
    {tree : FileTree}
    {place : Place}
    {names : List String}
    (there : ∀ other ∈ trail place names, tree.hasDirectory other) :
    tree.walk place names = .ok (goal place names) := by
  induction names generalizing place with
  | nil => rfl
  | cons name rest inductionHypothesis =>
    obtain ⟨here, later⟩ := List.forall_mem_cons.mp there
    rw [walk, if_pos here, inductionHypothesis later]
    rfl

private theorem directories_of_walk
    {tree : FileTree}
    {place found : Place}
    {names : List String}
    (walks : tree.walk place names = .ok found) :
    (∀ other ∈ trail place names, tree.hasDirectory other) ∧ found = goal place names := by
  induction names generalizing place with
  | nil => exact ⟨by simp [trail], (Except.ok.inj walks).symm⟩
  | cons name rest inductionHypothesis =>
    simp only [walk] at walks
    split at walks
    · rename_i here
      obtain ⟨later, isGoal⟩ := inductionHypothesis walks
      exact ⟨List.forall_mem_cons.mpr ⟨here, later⟩, isGoal⟩
    · split at walks <;> simp at walks

private theorem walk_of_clear
    {tree : FileTree}
    {place : Place}
    {names : List String}
    (clear : ∀ other ∈ trail place names, tree.contents? other = none) :
    tree.walk place names = .ok (goal place names) ∨ tree.walk place names = .error .missing := by
  induction names generalizing place with
  | nil => exact .inl rfl
  | cons name rest inductionHypothesis =>
    obtain ⟨here, later⟩ := List.forall_mem_cons.mp clear
    simp only [walk]
    split
    · exact inductionHypothesis later
    · exact .inr (by simp [here])

private theorem place_concat
    (tree : FileTree)
    (root : String)
    (names : List String)
    (name : String) :
    tree.place ⟨root, names ++ [name]⟩ =
      (tree.walk (tree.origin ⟨root, []⟩) names).map (step · name) := by
  rw [FileTree.place, List.dropLast_concat, List.getLast?_concat]
  change (tree.walk (tree.origin ⟨root, []⟩) names).bind _ = _
  cases tree.walk (tree.origin ⟨root, []⟩) names <;> rfl

private theorem goal_concat (place : Place) (names : List String) (name : String) :
    goal place (names ++ [name]) = step (goal place names) name :=
  List.foldl_append

/-! ## Making directories -/

section Making

variable
  {tree : FileTree}
  {root : String}

/-- A directory is made where those before it exist and no file is in its place. -/
theorem makeDirectory_of_directories
    {names : List String}
    {name : String}
    (there : ∀ other ∈ trail (tree.origin ⟨root, []⟩) names, tree.hasDirectory other)
    (free : tree.contents? (goal (tree.origin ⟨root, []⟩) (names ++ [name])) = none) :
    ∃ after, tree.makeDirectory ⟨root, names ++ [name]⟩ = .ok after ∧
      Furnished tree after (trail (tree.origin ⟨root, []⟩) (names ++ [name])) := by
  have isPlace : tree.place ⟨root, names ++ [name]⟩ =
      .ok (goal (tree.origin ⟨root, []⟩) (names ++ [name])) := by
    rw [place_concat, walk_of_directories there, goal_concat]
    rfl
  generalize isGoal : goal (tree.origin ⟨root, []⟩) (names ++ [name]) = last at isPlace free
  rw [trail_append, isGoal]
  by_cases here : tree.hasDirectory last
  · refine ⟨tree, ?_, .refl ?_⟩
    · simp [makeDirectory, isPlace, here, bind, Except.bind, pure, Except.pure]
    · exact List.forall_mem_append.mpr ⟨there, by simpa using here⟩
  · refine ⟨{ tree with directories := tree.directories ++ [last] }, ?_, rfl, rfl, ?_⟩
    · simp [makeDirectory, createDirectory, isPlace, here, free, bind, Except.bind, pure,
        Except.pure]
    · intro place
      have before := there place
      simp only [hasDirectory, List.contains_eq_mem, List.mem_append, List.mem_singleton,
        decide_eq_true_eq] at before ⊢
      constructor
      · rintro (old | new)
        · exact .inl old
        · exact .inr (.inr new)
      · rintro (old | onTrail | new)
        · exact .inl old
        · exact .inl (before onTrail)
        · exact .inr new

/-- The directories of a path and those on the way are made where no file is in the
way. -/
theorem makeWay_of_clear
    (names : List String)
    (clear : ∀ other ∈ trail (tree.origin ⟨root, []⟩) names.reverse, tree.contents? other = none) :
    ∃ after, makeWay root names tree = .ok after ∧
      Furnished tree after (trail (tree.origin ⟨root, []⟩) names.reverse) := by
  induction names with
  | nil => exact ⟨tree, rfl, .refl (by simp [trail])⟩
  | cons name before inductionHypothesis =>
    rw [List.reverse_cons, trail_append, List.forall_mem_append] at clear
    obtain ⟨clearBefore, free⟩ := clear
    have free := free _ (List.mem_singleton.mpr rfl)
    rw [List.reverse_cons]
    rw [makeWay, List.reverse_cons]
    rcases walk_of_clear clearBefore with walks | missing
    · obtain ⟨after, makes, furnished⟩ :=
        makeDirectory_of_directories (directories_of_walk walks).1 free
      exact ⟨after, by simp only [makes], furnished⟩
    · have fails : tree.makeDirectory ⟨root, before.reverse ++ [name]⟩ = .error .missing := by
        rw [makeDirectory, place_concat, missing]
        rfl
      obtain ⟨middle, makesWay, furnished⟩ := inductionHypothesis clearBefore
      have isOrigin := furnished.origin ⟨root, []⟩
      have there : ∀ other ∈ trail (middle.origin ⟨root, []⟩) before.reverse,
          middle.hasDirectory other := by
        rw [isOrigin]
        exact fun other onTrail => (furnished.directories other).mpr (.inr onTrail)
      have stillFree :
          middle.contents? (goal (middle.origin ⟨root, []⟩) (before.reverse ++ [name])) = none := by
        rw [isOrigin, furnished.contents?]
        exact free
      obtain ⟨after, makes, further⟩ := makeDirectory_of_directories there stillFree
      refine ⟨after, ?_, ?_⟩
      · simp only [fails, makesWay]
        exact makes
      · rw [isOrigin] at further
        refine ⟨further.files.trans furnished.files, further.current.trans furnished.current, ?_⟩
        intro place
        rw [further.directories, furnished.directories, trail_append, List.mem_append]
        grind

end Making

private theorem files_of_makeDirectory
    {tree after : FileTree}
    {path : Path}
    (makes : tree.makeDirectory path = .ok after) :
    after.files = tree.files := by
  cases isPlace : tree.place path with
  | error obstacle => simp [makeDirectory, isPlace, bind, Except.bind] at makes
  | ok place =>
    simp only [makeDirectory, createDirectory, isPlace, bind, Except.bind, pure, Except.pure] at makes
    split at makes
    · exact congrArg FileTree.files (Except.ok.inj makes).symm
    · split at makes
      · simp [throw, throwThe, MonadExceptOf.throw] at makes
      · rw [← Except.ok.inj makes]

private theorem files_of_makeWay
    {root : String}
    {names : List String}
    {tree after : FileTree}
    (makes : makeWay root names tree = .ok after) :
    after.files = tree.files := by
  induction names generalizing tree after with
  | nil => exact congrArg FileTree.files (Except.ok.inj makes).symm
  | cons name before inductionHypothesis =>
    rw [makeWay] at makes
    split at makes
    · cases isMiddle : makeWay root before tree with
      | error obstacle => simp [isMiddle, bind, Except.bind] at makes
      | ok middle =>
        rw [isMiddle] at makes
        exact (files_of_makeDirectory makes).trans (inductionHypothesis isMiddle)
    · exact files_of_makeDirectory makes

/-- Making directories changes no file. -/
theorem files_of_makeDirectories
    {tree after : FileTree}
    {path : Path}
    (makes : tree.makeDirectories path = .ok after) :
    after.files = tree.files := by
  unfold makeDirectories at makes
  split at makes
  · simp at makes
  · exact files_of_makeWay makes
/-! ## Reading and writing -/

/-- The places on the way to where a path leads. -/
def way (tree : FileTree) (path : Path) : List Place :=
  trail (tree.origin path) path.parts.dropLast

/-- The place where a path leads, whatever is on the way. -/
def target (tree : FileTree) (path : Path) : Place :=
  goal (tree.origin path) path.parts

private theorem place_eq_ok_iff {tree : FileTree} {path : Path} {place : Place} :
    tree.place path = .ok place ↔
      (∀ other ∈ tree.way path, tree.hasDirectory other) ∧ place = tree.target path := by
  obtain ⟨root, parts⟩ := path
  rcases List.eq_nil_or_concat parts with rfl | ⟨names, name, rfl⟩
  · constructor
    · exact fun isPlace => ⟨by simp [way, trail], (Except.ok.inj isPlace).symm⟩
    · rintro ⟨-, rfl⟩
      rfl
  · rw [List.concat_eq_append, place_concat, way, target, List.dropLast_concat]
    change _ ↔ (∀ other ∈ trail (tree.origin ⟨root, []⟩) names, _) ∧
      place = goal (tree.origin ⟨root, []⟩) (names ++ [name])
    rw [goal_concat]
    constructor
    · intro isPlace
      cases walks : tree.walk (tree.origin ⟨root, []⟩) names with
      | error obstacle => simp [walks, Except.map] at isPlace
      | ok found =>
        obtain ⟨there, rfl⟩ := directories_of_walk walks
        rw [walks] at isPlace
        exact ⟨there, (Except.ok.inj isPlace).symm⟩
    · rintro ⟨there, rfl⟩
      rw [walk_of_directories there]
      rfl

/-- A file is read if directories lead to it. -/
theorem read?_eq_some_iff {tree : FileTree} {path : Path} {bytes : ByteArray} :
    tree.read? path = some bytes ↔
      (∀ other ∈ tree.way path, tree.hasDirectory other) ∧
        tree.contents? (tree.target path) = some bytes := by
  unfold read?
  split
  · rename_i place isPlace
    obtain ⟨there, rfl⟩ := place_eq_ok_iff.mp isPlace
    exact ⟨fun isFile => ⟨there, isFile⟩, And.right⟩
  · rename_i fails
    simp only [reduceCtorEq, false_iff, not_and]
    intro there
    have succeeds := place_eq_ok_iff.mpr ⟨there, rfl⟩
    simp [fails] at succeeds

/-- A tree after the directories on a way were made and a file was written. -/
structure Wrote (tree after : FileTree) (way : List Place) (place : Place) (bytes : ByteArray) :
    Prop where
  current : after.current = tree.current
  directories : ∀ other, after.hasDirectory other ↔ tree.hasDirectory other ∨ other ∈ way
  contents : ∀ other, after.contents? other =
    if other = place then some bytes else tree.contents? other

/-- A file is written, with the directories on the way, where no file is in the way
and no directory in its place. -/
theorem exists_wrote
    {tree : FileTree}
    {path : Path}
    (bytes : ByteArray)
    (named : hasInvalidName path = false)
    (clear : ∀ other ∈ tree.way path, tree.contents? other = none)
    (free : ¬ tree.hasDirectory (tree.target path))
    (aside : tree.target path ∉ tree.way path) :
    ∃ middle after,
      tree.makeDirectories { path with parts := path.parts.dropLast } = .ok middle ∧
      middle.write path bytes = .ok after ∧
      Wrote tree after (tree.way path) (tree.target path) bytes := by
  have validWay : hasInvalidName { path with parts := path.parts.dropLast } = false := by
    rw [hasInvalidName, List.any_eq_false] at named ⊢
    exact fun name member => named name (List.dropLast_subset _ member)
  have clearWay : ∀ other ∈ trail (tree.origin ⟨path.root, []⟩) path.parts.dropLast.reverse.reverse,
      tree.contents? other = none := by
    rw [List.reverse_reverse]
    exact clear
  obtain ⟨middle, makes, furnished⟩ := makeWay_of_clear _ clearWay
  rw [List.reverse_reverse] at furnished
  change Furnished tree middle (tree.way path) at furnished
  have isWay : middle.way path = tree.way path := by rw [way, furnished.origin, way]
  have isTarget : middle.target path = tree.target path := by rw [target, furnished.origin, target]
  have isPlace : middle.place path = .ok (tree.target path) := by
    rw [place_eq_ok_iff, isWay, isTarget]
    exact ⟨fun other onWay => (furnished.directories other).mpr (.inr onWay), rfl⟩
  have vacant : middle.hasDirectory (tree.target path) = false := by
    rw [Bool.eq_false_iff, Ne, furnished.directories]
    exact fun either => either.elim free aside
  refine ⟨middle, middle.put (tree.target path) bytes, ?_, ?_, furnished.current,
    furnished.directories, fun other => ?_⟩
  · rw [makeDirectories, validWay]
    exact makes
  · simp [write, isPlace, vacant, bind, Except.bind, pure, Except.pure]
  · rw [contents?_put, furnished.contents?]

/-! ## Trees that go on -/

/-- A tree that has kept its directories, and its files but for some places. -/
structure Advanced (tree after : FileTree) (places : List Place) : Prop where
  current : after.current = tree.current
  directories : ∀ place, tree.hasDirectory place → after.hasDirectory place
  contents : ∀ place, place ∉ places → after.contents? place = tree.contents? place

theorem Advanced.refl (tree : FileTree) (places : List Place) : Advanced tree tree places :=
  ⟨rfl, fun _ => id, fun _ _ => rfl⟩

section Advanced

variable
  {tree middle after : FileTree}
  {places others : List Place}

theorem Advanced.trans
    (first : Advanced tree middle places)
    (second : Advanced middle after others) :
    Advanced tree after (places ++ others) where
  current := second.current.trans first.current
  directories place isThere := second.directories place (first.directories place isThere)
  contents place notThere := by
    rw [List.mem_append, not_or] at notThere
    rw [second.contents place notThere.2, first.contents place notThere.1]

theorem Advanced.mono (advanced : Advanced tree after places) (subset : places ⊆ others) :
    Advanced tree after others where
  current := advanced.current
  directories := advanced.directories
  contents place notThere := advanced.contents place fun isThere => notThere (subset isThere)

theorem Advanced.way (advanced : Advanced tree after places) (path : Path) :
    after.way path = tree.way path := by
  rw [FileTree.way, FileTree.origin, advanced.current]
  rfl

theorem Advanced.target (advanced : Advanced tree after places) (path : Path) :
    after.target path = tree.target path := by
  rw [FileTree.target, FileTree.origin, advanced.current]
  rfl

/-- A file elsewhere is read as before. -/
theorem Advanced.read?
    (advanced : Advanced tree after places)
    {path : Path}
    {bytes : ByteArray}
    (isFile : tree.read? path = some bytes)
    (elsewhere : tree.target path ∉ places) :
    after.read? path = some bytes := by
  obtain ⟨there, isFile⟩ := read?_eq_some_iff.mp isFile
  rw [read?_eq_some_iff, advanced.way, advanced.target, advanced.contents _ elsewhere]
  exact ⟨fun other onWay => advanced.directories other (there other onWay), isFile⟩

theorem Wrote.advanced
    {place : Place}
    {bytes : ByteArray}
    (wrote : Wrote tree after places place bytes) :
    Advanced tree after [place] where
  current := wrote.current
  directories other isThere := (wrote.directories other).mpr (.inl isThere)
  contents other elsewhere := by
    rw [wrote.contents, if_neg (by simpa using elsewhere)]

/-- The file that was written is read. -/
theorem Wrote.read?_own
    {path : Path}
    {bytes : ByteArray}
    (wrote : Wrote tree after (tree.way path) (tree.target path) bytes) :
    after.read? path = some bytes := by
  rw [read?_eq_some_iff, wrote.advanced.way, wrote.advanced.target, wrote.contents, if_pos rfl]
  exact ⟨fun other onWay => (wrote.directories other).mpr (.inr onWay), rfl⟩

end Advanced

end Restyle.FileTree
