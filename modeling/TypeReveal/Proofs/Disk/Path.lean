import Mathlib.Logic.Relation
import TypeReveal.Disk.Path
import TypeReveal.Proofs.Text.Search

/-!
# Going up from a directory

`Path.ancestors` cuts one name after the other off a path.  `Path.parent?` is one step of this, so
that the list starts with a directory and goes on with that of its parent (`ancestors_eq`), and
`Path.Up` is any number of steps.

A path is made of its names again: they are not empty, no dots, and hold no slash
(`parts_ofParts`).
-/

set_option autoImplicit false
namespace TypeReveal
namespace Path

/-! ## Names

A path is a text, and its names are what stands between slashes, without empty ones and single dots.
Names put together to a path are found in it again. -/

/-- A name as it stands between the slashes of a path. -/
structure IsPart (name : String) : Prop where
  ne_empty : name ≠ ""
  ne_dot : name ≠ "."
  slash : '/' ∉ name.toList

variable {absolute : Bool} {parts : List String} {name : String} {path : Path}

/-- The names of a path are names. -/
theorem isPart_of_mem_parts (h : name ∈ path.parts) : IsPart name := by
  obtain ⟨hname, hkept⟩ := List.mem_filter.1 h
  obtain ⟨text, htext, rfl⟩ := List.mem_map.1 hname
  rw [splitOn_eq_splitOn] at htext
  simp only [Bool.and_eq_true, bne_iff_ne] at hkept
  exact ⟨hkept.1, hkept.2, by simpa using not_mem_of_mem_splitOn htext⟩

theorem toList_ofParts : (ofParts absolute parts).text.toList =
    (if absolute then ['/'] else []) ++ ['/'].intercalate (parts.map String.toList) := by
  rw [ofParts, String.toList_append, String.toList_intercalate]
  cases absolute <;> rfl

/-- The parts that a path leaves between its slashes, if it is made of names. -/
theorem splitOn_intercalate_parts (h : ∀ name ∈ parts, IsPart name) :
    ((splitOn '/' (['/'].intercalate (parts.map String.toList))).map String.ofList).filter
      (fun part => part != "" && part != ".") = parts := by
  cases parts with
  | nil => decide
  | cons first more =>
    have hslash : ∀ text ∈ (first :: more).map String.toList, '/' ∉ text :=
      List.forall_mem_map.2 fun name hname => (h name hname).slash
    rw [splitOn_eq_splitOn, List.splitOn_intercalate '/' hslash (List.cons_ne_nil _ _),
      map_ofList_toList, List.filter_eq_self]
    intro name hname
    simp [(h name hname).ne_empty, (h name hname).ne_dot]

/-- **A path that is made of names has these names.** -/
theorem parts_ofParts (h : ∀ name ∈ parts, IsPart name) :
    (ofParts absolute parts).parts = parts := by
  rw [Path.parts, toList_ofParts]
  cases absolute with
  | false => exact splitOn_intercalate_parts h
  | true => exact splitOn_intercalate_parts h

theorem isAbsolute_ofParts (h : ∀ name ∈ parts, IsPart name) :
    (ofParts absolute parts).isAbsolute = absolute := by
  rw [isAbsolute, toList_ofParts]
  cases absolute with
  | true => rfl
  | false =>
    cases parts with
    | nil => rfl
    | cons first more =>
      obtain ⟨hne, -, hslash⟩ := h first List.mem_cons_self
      obtain ⟨c, rest, hfirst⟩ := List.exists_cons_of_ne_nil (mt String.toList_eq_nil_iff.1 hne)
      rw [hfirst, List.mem_cons, not_or] at hslash
      have hhead : (['/'].intercalate ((first :: more).map String.toList)).head? = some c := by
        cases more with
        | nil => simp [hfirst]
        | cons next more => simp [hfirst]
      show ((['/'].intercalate ((first :: more).map String.toList)).head? == some '/') = false
      rw [hhead]
      simpa using Ne.symm hslash.1

/-! ## One step

The root of a disk and the empty path have no parent; a relative path ends at the directory that it
starts from. -/

/-- The directory around a directory, if its path has one. -/
def parent? (path : Path) : Option Path := if path.parts = [] then none else some path.directory

/-- The directory of a path has all its names but the last. -/
theorem parts_directory : path.directory.parts = path.parts.dropLast :=
  parts_ofParts fun _ hname => isPart_of_mem_parts (List.mem_of_mem_dropLast hname)

theorem isAbsolute_directory (h : path.parts ≠ []) :
    path.directory.isAbsolute = path.isAbsolute := by
  have hparts : ∀ name ∈ path.parts.dropLast, IsPart name :=
    fun _ hname => isPart_of_mem_parts (List.mem_of_mem_dropLast hname)
  rw [directory, isAbsolute_ofParts hparts]
  simpa using fun _ => h

/-- A parent has one name less. -/
theorem length_parts_lt_of_parent? {parent : Path} (h : path.parent? = some parent) :
    parent.parts.length < path.parts.length := by
  rw [parent?] at h
  split at h
  · cases h
  · next hne =>
    cases h
    rw [parts_directory, List.length_dropLast]
    have := List.length_pos_of_ne_nil hne
    omega

/-- **A directory comes first, and then the directories of its parent.** -/
theorem ancestors_eq : path.ancestors =
    ofParts path.isAbsolute path.parts ::
      match path.parent? with
      | none => []
      | some parent => parent.ancestors := by
  have hself : path.parts.take path.parts.length = path.parts := List.take_length
  rw [ancestors, List.range_succ, List.reverse_append, List.reverse_singleton,
    List.singleton_append, List.map_cons, hself, parent?]
  refine congrArg _ ?_
  by_cases hnil : path.parts = []
  · rw [if_pos hnil, hnil]
    rfl
  · have hlength := List.length_pos_of_ne_nil hnil
    rw [if_neg hnil]
    show _ = path.directory.ancestors
    rw [ancestors, isAbsolute_directory hnil, parts_directory, List.length_dropLast,
      Nat.sub_add_cancel hlength]
    refine List.map_congr_left fun n hn => congrArg _ ?_
    rw [List.mem_reverse, List.mem_range] at hn
    rw [List.dropLast_eq_take, List.take_take, Nat.min_eq_left (by omega)]

/-! ## Any number of steps

Each step makes the path shorter by a name, so that nothing is above itself. -/

/-- A directory and one that is reached from it by going up. -/
def Up : Path → Path → Prop := Relation.ReflTransGen fun lower upper => lower.parent? = some upper

variable {lower upper : Path}

/-- Going up is staying, or taking one step and going up from there. -/
theorem up_iff : lower.Up upper ↔
    upper = lower ∨ ∃ parent, lower.parent? = some parent ∧ parent.Up upper :=
  Relation.ReflTransGen.cases_head_iff.trans (or_congr_left eq_comm)

theorem Up.eq_or_lt (h : lower.Up upper) :
    upper = lower ∨ upper.parts.length < lower.parts.length := by
  induction h with
  | refl => exact .inl rfl
  | tail _ hparent ih =>
    have hlt := length_parts_lt_of_parent? hparent
    rcases ih with rfl | ih
    · exact .inr hlt
    · exact .inr (hlt.trans ih)

/-- Of two directories not both are above each other. -/
theorem Up.antisymm (h : lower.Up upper) (h' : upper.Up lower) : lower = upper := by
  rcases h.eq_or_lt with heq | hlt
  · exact heq.symm
  · rcases h'.eq_or_lt with heq | hlt'
    · exact heq
    · exact absurd (hlt.trans hlt') (Nat.lt_irrefl _)

end Path
end TypeReveal
