import HornLogic.CommandLine.World
import HornLogic.Proofs.CommandLine.Writing

/-!
# What is seen of a machine

The files seen from a directory are those of the machine that are in it (`file_seen_iff`). Of the machine of a world
the world itself is seen, with what has been complained since (`seeing_complain`).
-/
namespace HornLogic.CommandLine

set_option autoImplicit false

open Text

namespace Directory

variable {directory : Directory}

theorem named?_eq_some_iff {file : Location × List UInt8} {name : String} {content : List UInt8} :
    directory.named? file = some (name, content) ↔ file = (directory.location ++ [name], content) := by
  obtain ⟨location, held⟩ := file
  rw [named?]
  constructor
  · intro named
    split at named
    · rename_i within
      obtain ⟨last, ends, same⟩ := Option.map_eq_some_iff.mp named
      cases same
      rw [← within, List.dropLast_append_getLast? name ends]
    · cases named
  · intro same
    cases same
    simp

theorem mem_holding {contents : Contents} {name : String} {content : List UInt8} :
    (name, content) ∈ (directory.holding contents).files ↔
      (directory.location ++ [name], content) ∈ contents := by
  rw [holding, SortedBy.mem_ofList_of_apart, List.mem_filterMap]
  · simp only [named?_eq_some_iff, exists_eq_right]
    rfl
  · -- Files of one directory are apart by their names, since they are by their locations.
    rw [List.pairwise_filterMap]
    apply contents.ascending.imp
    rintro left right before ⟨name, content⟩ leftNamed ⟨other, held⟩ rightNamed same
    rw [named?_eq_some_iff] at leftNamed rightNamed
    rw [Std.LawfulEqCmp.compare_eq_iff_eq] at same
    simp only at same
    rw [leftNamed, rightNamed, same] at before
    cases Std.ReflCmp.compare_self.symm.trans before

theorem mem_contents {name : String} {content : List UInt8} :
    (directory.location ++ [name], content) ∈ directory.contents ↔ (name, content) ∈ directory.files := by
  rw [contents, SortedBy.mem_ofList_of_apart, List.mem_map]
  · constructor
    · rintro ⟨⟨other, held⟩, member, same⟩
      simp only [Prod.mk.injEq, List.append_cancel_left_eq, List.cons.injEq, and_true] at same
      rw [← same.1, ← same.2]
      exact member
    · exact fun member => ⟨_, member, rfl⟩
  · rw [List.pairwise_map]
    apply directory.files.ascending.imp
    intro left right before same
    simp only [Std.LawfulEqCmp.compare_eq_iff_eq, List.append_cancel_left_eq, List.cons.injEq, and_true] at same
    rw [same] at before
    cases Std.ReflCmp.compare_self.symm.trans before

theorem holding_contents (directory : Directory) : directory.holding directory.contents = directory := by
  have files : (directory.holding directory.contents).files = directory.files := by
    apply SortedBy.ext_of_mem
    rintro ⟨name, content⟩
    rw [mem_holding, mem_contents]
  cases directory
  exact congrArg (mk _) files

end Directory

namespace World

/-- The files seen are those in the directory. -/
theorem file_seen_iff {world : World} {machine : Machine} {name : String} {content : List UInt8} :
    (name, content) ∈ (world.seeing machine).directory.files ↔
      machine.file? (world.directory.location ++ [name]) = some content := by
  rw [Machine.file?_eq_some_iff, seeing, Directory.mem_holding]

/-- A run that does no more than complain is seen to do no more. -/
theorem seeing_complain (world : World) (text : String) :
    world.seeing (world.machine.complain text) = { world with complaints := world.complaints ++ text } := by
  have complaints : (world.machine.complain text).complaints = Utf8.encode (world.complaints ++ text) :=
    (Utf8.encode_append world.complaints text).symm
  have output : (world.machine.complain text).output = Utf8.encode world.output := rfl
  rw [seeing, complaints, output, Utf8.decode?_encode, Utf8.decode?_encode]
  have directory : world.directory.holding (world.machine.complain text).contents = world.directory :=
    world.directory.holding_contents
  rw [directory]
  rfl

end World
end HornLogic.CommandLine
