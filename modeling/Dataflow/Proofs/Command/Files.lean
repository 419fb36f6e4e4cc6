import Dataflow.Command.Files
import Dataflow.Proofs.Location.Canonical

/-!
# Written files

Where a path leads in a tree of files, it leads in every tree that grew out of it
(`FileTree.Extends.find`). Writing a file only makes the tree grow, by missing directories and by
the file. So the file is read back (`FileTree.read_write`), and files of other names in the
directory are read as before (`FileTree.read_write_of_ne`).
-/

namespace Dataflow.FileTree

open Location (IsName)

variable {t t' t'' : FileTree} {directory place next : Segments}
  {parent path name name' text text' : String}

/-! ## Walking -/

theorem isHere_of_isName (h : IsName name.toList) : isHere name = false := by
  obtain ⟨hnil, hhere, -, -⟩ := h
  rw [isHere, Bool.or_eq_false_iff, beq_eq_false_iff_ne, beq_eq_false_iff_ne]
  constructor
  · rintro rfl
    exact hnil rfl
  · rintro rfl
    exact hhere rfl

theorem ne_up_of_isName (h : IsName name.toList) : name ≠ ".." := by
  rintro rfl
  exact h.2.2.1 rfl

/-- A step to a name leads to the file or the directory with this name. -/
theorem step_name (h : IsName name.toList) : t.step place name = .ok next ↔
    t.isDirectory place = true ∧ name.utf8ByteSize ≤ nameLimit ∧ next = place ++ [name] ∧
      (t.isFile next = true ∨ t.isDirectory next = true) := by
  have hup : (name == "..") = false := beq_eq_false_iff_ne.mpr (ne_up_of_isName h)
  simp only [step, isHere_of_isName h, hup, Bool.false_eq_true, if_false]
  by_cases hdir : t.isDirectory place = true
  · by_cases hlong : nameLimit < name.utf8ByteSize
    · simp [hdir, hlong, Nat.not_le.mpr hlong]
    · simp only [hdir, hlong, Bool.not_true, Bool.false_eq_true, if_false, true_and,
        Nat.le_of_not_lt hlong, Bool.or_eq_true]
      split_ifs with hthere
      · rw [Except.ok.injEq]
        constructor
        · rintro rfl
          exact ⟨rfl, hthere⟩
        · rintro ⟨rfl, -⟩
          rfl
      · constructor
        · intro hnext
          cases hnext
        · rintro ⟨rfl, hthere'⟩
          exact absurd hthere' hthere
  · simp [hdir]

/-! ## Growing trees -/

/-- Every file and every directory of the one tree is one of the other. -/
structure Extends (t t' : FileTree) : Prop where
  isFile : ∀ place, t.isFile place = true → t'.isFile place = true
  isDirectory : ∀ place, t.isDirectory place = true → t'.isDirectory place = true

namespace Extends

theorem trans (h : Extends t t') (h' : Extends t' t'') : Extends t t'' :=
  ⟨fun place hplace => h'.isFile place (h.isFile place hplace),
    fun place hplace => h'.isDirectory place (h.isDirectory place hplace)⟩

/-- A step that leads somewhere leads there still. -/
theorem step (h : Extends t t') (hstep : t.step place name = .ok next) :
    t'.step place name = .ok next := by
  simp only [FileTree.step] at hstep ⊢
  split_ifs at hstep with hdir hhere hup hlong hthere
  all_goals
    have hdir' : t'.isDirectory place = true := h.isDirectory place (by simpa using hdir)
    rw [hdir', Bool.not_true, if_neg Bool.false_ne_true]
  · rw [if_pos hhere, hstep]
  · rw [if_neg hhere, if_pos hup, hstep]
  · have hthere' : (t'.isFile (place ++ [name]) || t'.isDirectory (place ++ [name])) = true := by
      rw [Bool.or_eq_true] at hthere ⊢
      exact hthere.imp (h.isFile _) (h.isDirectory _)
    rw [if_neg hhere, if_neg hup, if_neg hlong, if_pos hthere', hstep]

theorem walk (h : Extends t t') {names : List String}
    (hwalk : names.foldlM t.step place = .ok next) :
    names.foldlM t'.step place = .ok next := by
  induction names generalizing place with
  | nil => exact hwalk
  | cons name names ih =>
    rw [List.foldlM_cons] at hwalk ⊢
    obtain ⟨reached, hstep, hwalk⟩ := Pass.except_bind_eq_ok.mp hwalk
    rw [h.step hstep]
    exact ih hwalk

theorem find (h : Extends t t') (hfind : t.find directory path = .ok place) :
    t'.find directory path = .ok place := by
  unfold FileTree.find at hfind ⊢
  split_ifs at hfind ⊢
  exact h.walk hfind

end Extends

/-! ## Making directories -/

/-- The trees have the same files, and the one may have more directories. -/
structure Deepens (t t' : FileTree) : Prop where
  files : t'.files = t.files
  directories : t.directories <+: t'.directories

namespace Deepens

theorem refl : Deepens t t := ⟨rfl, List.prefix_rfl⟩

theorem trans (h : Deepens t t') (h' : Deepens t' t'') : Deepens t t'' :=
  ⟨h'.files.trans h.files, h.directories.trans h'.directories⟩

theorem grows (h : Deepens t t') : Extends t t' := by
  constructor
  · intro place hplace
    rwa [isFile, h.files]
  · intro place hplace
    unfold isDirectory at hplace ⊢
    rw [h.files]
    simp only [Bool.or_eq_true, List.any_eq_true] at hplace ⊢
    rcases hplace with (hroot | ⟨listed, hmem, hbelow⟩) | hholds
    · exact .inl (.inl hroot)
    · exact .inl (.inr ⟨listed, h.directories.subset hmem, hbelow⟩)
    · exact .inr hholds

end Deepens

theorem deepens_makeDirectory (h : t.makeDirectory directory path = .ok t') : Deepens t t' := by
  unfold makeDirectory at h
  obtain ⟨found, -, h⟩ := Pass.except_bind_eq_ok.mp h
  cases found with
  | none => cases h
  | some place =>
    simp only at h
    split_ifs at h
    · cases h
    · obtain rfl := Except.ok.inj h
      exact ⟨rfl, List.prefix_append _ _⟩

theorem deepens_makeOutermost {paths missing : List String}
    (h : makeOutermost directory t paths = .ok (t', missing)) : Deepens t t' := by
  induction paths generalizing t' missing with
  | nil =>
    obtain ⟨rfl, -⟩ := Prod.mk.inj (Except.ok.inj h)
    exact .refl
  | cons path above ih =>
    unfold makeOutermost at h
    split at h
    · next made hmade =>
      obtain ⟨rfl, -⟩ := Prod.mk.inj (Except.ok.inj h)
      exact deepens_makeDirectory hmade
    · -- nothing was made here, only above
      obtain ⟨⟨u, missing'⟩, habove, h⟩ := Pass.except_bind_eq_ok.mp h
      obtain ⟨rfl, -⟩ := Prod.mk.inj (Except.ok.inj h)
      exact ih habove
    · split_ifs at h
      obtain ⟨rfl, -⟩ := Prod.mk.inj (Except.ok.inj h)
      exact .refl

theorem deepens_ensureDirectory (h : ensureDirectory directory t path = .ok t') : Deepens t t' := by
  unfold ensureDirectory at h
  split at h
  · split_ifs at h
    obtain rfl := Except.ok.inj h
    exact .refl
  · exact deepens_makeDirectory h

theorem deepens_makeDirectories (h : t.makeDirectories directory path = .ok t') : Deepens t t' := by
  unfold makeDirectories at h
  obtain ⟨⟨u, missing⟩, houtermost, h⟩ := Pass.except_bind_eq_ok.mp h
  refine (deepens_makeOutermost houtermost).trans ?_
  clear houtermost
  change missing.foldlM (ensureDirectory directory) u = .ok t' at h
  induction missing generalizing u with
  | nil =>
    obtain rfl := Except.ok.inj h
    exact .refl
  | cons path missing ih =>
    rw [List.foldlM_cons] at h
    obtain ⟨v, hmade, h⟩ := Pass.except_bind_eq_ok.mp h
    exact (deepens_ensureDirectory hmade).trans (ih v h)

/-! ## Putting a file somewhere -/

/-- The tree with a file of the text at a place. -/
def put (t : FileTree) (place : Segments) (text : String) : FileTree :=
  { t with files := t.files.filter (·.1 != place) ++ [(place, text)] }

theorem lookup_filter_self (place : Segments) (files : List (Segments × String)) :
    (files.filter (·.1 != place)).lookup place = none := by
  rw [List.lookup_eq_none_iff]
  intro file hfile
  rw [bne_comm]
  exact (List.mem_filter.mp hfile).2

theorem lookup_filter_of_ne (h : next ≠ place) (files : List (Segments × String)) :
    (files.filter (·.1 != place)).lookup next = files.lookup next := by
  induction files with
  | nil => rfl
  | cons file files ih =>
    obtain ⟨there, text⟩ := file
    by_cases hthere : there = place
    · subst hthere
      rw [List.filter_cons_of_neg (by simp), List.lookup_cons, beq_eq_false_iff_ne.mpr h]
      exact ih
    · rw [List.filter_cons_of_pos (by simpa using hthere), List.lookup_cons, List.lookup_cons, ih]

theorem lookup_put (t : FileTree) (place : Segments) (text : String) :
    (t.put place text).files.lookup place = some text := by
  simp [put, List.lookup_append, lookup_filter_self]

theorem lookup_put_of_ne (h : next ≠ place) (t : FileTree) (text : String) :
    (t.put place text).files.lookup next = t.files.lookup next := by
  rw [put, List.lookup_append, lookup_filter_of_ne h, List.lookup_cons, beq_eq_false_iff_ne.mpr h]
  simp

theorem isFile_put (t : FileTree) (place : Segments) (text : String) :
    (t.put place text).isFile place = true := by
  rw [isFile, lookup_put]
  rfl

theorem extends_put (t : FileTree) (place : Segments) (text : String) :
    Extends t (t.put place text) := by
  constructor
  · intro there hthere
    by_cases heq : there = place
    · exact heq ▸ isFile_put t place text
    · rwa [isFile, lookup_put_of_ne heq]
  · intro there hthere
    unfold isDirectory at hthere ⊢
    simp only [Bool.or_eq_true, List.any_eq_true] at hthere ⊢
    refine hthere.imp_right ?_
    -- a file that makes this a directory is still there, with another text if it is the one put
    rintro ⟨⟨file, old⟩, hmem, hbelow⟩
    by_cases heq : file = place
    · exact ⟨(place, text), by simp [put], heq ▸ hbelow⟩
    · exact ⟨(file, old), by simp [put, hmem, heq], hbelow⟩

/-! ## A file in a directory -/

/-- The path of a file in a directory. -/
def pathIn (parent name : String) : String := parent ++ "/" ++ name

theorem namesOf_pathIn (h : IsName name.toList) :
    namesOf (pathIn parent name) = namesOf parent ++ [name] := by
  unfold namesOf pathIn
  rw [String.toList_append, String.toList_append, List.append_assoc]
  show (Text.splitOn '/' (parent.toList ++ '/' :: name.toList)).map _ = _
  rw [Text.splitOn_append_cons, Text.splitOn_of_notMem h.2.2.2, List.map_append, List.map_singleton,
    String.ofList_toList]

/-- The path leads to the directory at the place, and neither it nor the name is too long. -/
structure Reaches (t : FileTree) (directory : Segments) (parent name : String) (place : Segments) :
    Prop where
  pathSize : (pathIn parent name).utf8ByteSize ≤ pathLimit
  nameSize : name.utf8ByteSize ≤ nameLimit
  walk : (namesOf parent).foldlM t.step (startOf directory (pathIn parent name)) = .ok place
  isDirectory : t.isDirectory place = true

theorem Extends.reaches (h : Extends t t') (hreaches : t.Reaches directory parent name place) :
    t'.Reaches directory parent name place :=
  ⟨hreaches.pathSize, hreaches.nameSize, h.walk hreaches.walk, h.isDirectory _ hreaches.isDirectory⟩

theorem isEmpty_pathIn (parent name : String) : (pathIn parent name).isEmpty = false := by
  rw [Bool.eq_false_iff, ne_eq, String.isEmpty_iff]
  intro h
  have := congrArg String.toList h
  simp [pathIn] at this

theorem find_pathIn (hname : IsName name.toList) :
    t.find directory (pathIn parent name) = .ok next ↔ ∃ place,
      t.Reaches directory parent name place ∧ next = place ++ [name] ∧
        (t.isFile next = true ∨ t.isDirectory next = true) := by
  unfold find
  rw [isEmpty_pathIn, namesOf_pathIn hname, List.foldlM_append]
  simp only [Bool.false_eq_true, if_false, List.foldlM_cons, List.foldlM_nil, bind_pure]
  split_ifs with hlong
  · -- a path that is too long leads nowhere
    constructor
    · intro h
      cases h
    · rintro ⟨place, hreaches, -⟩
      exact absurd hreaches.pathSize (Nat.not_le.mpr hlong)
  · simp only [Pass.except_bind_eq_ok, step_name hname]
    constructor
    · rintro ⟨place, hwalk, hdir, hsize, hnext, hthere⟩
      exact ⟨place, ⟨Nat.le_of_not_lt hlong, hsize, hwalk, hdir⟩, hnext, hthere⟩
    · rintro ⟨place, hreaches, hnext, hthere⟩
      exact ⟨place, hreaches.walk, hreaches.isDirectory, hreaches.nameSize, hnext, hthere⟩

theorem placeFor_pathIn (hname : IsName name.toList) {found : Option Segments}
    (h : t.placeFor directory (pathIn parent name) = .ok found) :
    ∃ place, t.Reaches directory parent name place ∧ found = some (place ++ [name]) := by
  have hnil : (name == "") = false := by
    rw [beq_eq_false_iff_ne]
    rintro rfl
    exact hname.1 rfl
  have hup : (name == "..") = false := beq_eq_false_iff_ne.mpr (ne_up_of_isName hname)
  unfold placeFor at h
  rw [namesOf_pathIn hname, List.reverse_append, List.reverse_singleton, List.singleton_append,
    List.dropWhile_cons_of_neg (by simp [hnil]), List.reverse_cons, List.reverse_reverse] at h
  simp only [List.getLast?_concat, List.dropLast_concat, isHere_of_isName hname, hup, Bool.or_self,
    Bool.false_eq_true, if_false] at h
  by_cases hlong : pathLimit < (pathIn parent name).utf8ByteSize
  · rw [if_pos hlong] at h
    cases h
  by_cases hsize : nameLimit < name.utf8ByteSize
  · -- this is found out last, when the directory was reached
    rw [if_neg hlong] at h
    obtain ⟨place, -, h⟩ := Pass.except_bind_eq_ok.mp h
    rw [if_pos hsize] at h
    split_ifs at h <;> cases h
  · rw [if_neg hlong] at h
    obtain ⟨place, hwalk, h⟩ := Pass.except_bind_eq_ok.mp h
    rw [if_neg hsize] at h
    split_ifs at h with hdir
    · cases h
    · refine ⟨place, ⟨Nat.le_of_not_lt hlong, Nat.le_of_not_lt hsize, hwalk, ?_⟩, ?_⟩
      · simpa using hdir
      · exact (Except.ok.inj h).symm

/-- Missing directories are made, and then the file is put into the last of them. -/
theorem write_eq_ok (hname : IsName name.toList)
    (h : t.write directory parent name text = .ok t') : ∃ u place, Deepens t u ∧
      u.Reaches directory parent name place ∧ t' = u.put (place ++ [name]) text := by
  unfold write at h
  obtain ⟨u, hmade, h⟩ := Pass.except_bind_eq_ok.mp h
  obtain ⟨found, hfound, h⟩ := Pass.except_bind_eq_ok.mp h
  obtain ⟨place, hreaches, rfl⟩ := placeFor_pathIn hname hfound
  refine ⟨u, place, deepens_makeDirectories hmade, hreaches, ?_⟩
  simp only at h
  split_ifs at h
  · cases h
  · exact (Except.ok.inj h).symm

theorem read_eq_ok : t.read directory path = .ok text ↔
    ∃ place, t.find directory path = .ok place ∧ t.files.lookup place = some text := by
  unfold read
  rw [Pass.except_bind_eq_ok]
  refine exists_congr fun place => and_congr_right fun _ => ?_
  cases t.files.lookup place with
  | none => exact iff_of_false nofun nofun
  | some old =>
    show Except.ok old = Except.ok text ↔ _
    rw [Option.some_inj, Except.ok.injEq]

/-- What was written is read back. -/
theorem read_write (hname : IsName name.toList)
    (h : t.write directory parent name text = .ok t') :
    t'.read directory (pathIn parent name) = .ok text := by
  obtain ⟨u, place, -, hreaches, rfl⟩ := write_eq_ok hname h
  -- the directory is reached as before the file was put there, and now the file is in it
  refine read_eq_ok.mpr ⟨place ++ [name], ?_, lookup_put u _ text⟩
  refine (find_pathIn hname).mpr ⟨place, (extends_put u _ text).reaches hreaches, rfl, .inl ?_⟩
  exact isFile_put u _ text

/-- A file of another name is read as before. -/
theorem read_write_of_ne (hname : IsName name.toList) (hname' : IsName name'.toList)
    (hne : name' ≠ name) (h : t.write directory parent name text = .ok t')
    (hread : t.read directory (pathIn parent name') = .ok text') :
    t'.read directory (pathIn parent name') = .ok text' := by
  obtain ⟨u, place, hdeep, hreaches, rfl⟩ := write_eq_ok hname h
  obtain ⟨there, hfind, hlookup⟩ := read_eq_ok.mp hread
  have hfind' := (hdeep.grows.trans (extends_put u (place ++ [name]) text)).find hfind
  refine read_eq_ok.mpr ⟨there, hfind', ?_⟩
  -- the places end in different names, wherever they are
  obtain ⟨place', -, rfl, -⟩ := (find_pathIn hname').mp hfind
  have hplaces : place' ++ [name'] ≠ place ++ [name] := by
    intro heq
    have hlast := congrArg List.getLast? heq
    rw [List.getLast?_concat, List.getLast?_concat] at hlast
    exact hne (Option.some.inj hlast)
  rw [lookup_put_of_ne hplaces, hdeep.files, hlookup]

end Dataflow.FileTree
