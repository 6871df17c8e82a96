import Mathlib.Data.List.Nodup
import MediaGraph.Catalog.Document
import MediaGraph.Proofs.Catalogs
import MediaGraph.Proofs.Printing

/-! Catalogs as documents, written and read back.
A record that is written with each of its fields once is found again field by field, whatever
stands in them. -/
namespace MediaGraph

namespace Json
variable {α : Type}

theorem wantedMembers_all {names : List String} {members : List (String × α)}
    (named : members.map (·.1) = names) (once : names.Nodup) :
    wantedMembers names members = .ok members := by
  subst named
  have wanted : members.filter (fun m => (members.map (·.1)).contains m.1) = members :=
    List.filter_eq_self.mpr fun m member => List.contains_iff_mem.mpr (List.mem_map_of_mem member)
  have single (name : String) : (members.filter fun m => m.1 == name).length ≤ 1 := by
    rw [← List.countP_eq_length_filter]
    have count := List.nodup_iff_count_le_one.mp once name
    rwa [List.count,List.countP_map] at count
  simp only [wantedMembers,wanted]
  rw [List.find?_eq_none.mpr fun name _ => by simpa using single name]

theorem fields_tree {names : List String} {members : List (String × Json)}
    (named : members.map (·.1) = names) (once : names.Nodup) :
    (Json.object members).tree.fields names = .ok (members.map fun m => (m.1,m.2.tree)) := by
  have keys : (memberTrees members).mapM (fun m => do return (← textOf m.1,m.2)) =
      Except.ok (members.map fun m => (m.1,m.2.tree)) := by
    clear named
    induction members with
    | nil => rfl
    | cons m rest ih =>
      rw [memberTrees,List.mapM_cons,textOf_pieces,ih]
      rfl
  simp only [tree,Tree.fields,keys]
  exact wantedMembers_all (by rw [List.map_map]; exact named) once

end Json

namespace Pads
open Json

theorem ofJson_toJson (pads : Pads) : ofJson pads.toJson = .ok pads := by
  cases pads with
  | none => rfl
  | dynamic => rfl
  | fixed media =>
    have read : (media.map Media.toJson).mapM Media.ofJson? = some media := by
      induction media with
      | nil => rfl
      | cons kind rest ih =>
        rw [List.map_cons,List.mapM_cons,ih]
        simp [Media.toJson,Media.ofJson?,Media.ofName?_name]
    simp [toJson,ofJson,read]

theorem toJson_plain (pads : Pads) (depth : Nat) : Plain (depth + 1) pads.toJson := by
  cases pads with
  | none => trivial
  | dynamic => trivial
  | fixed media =>
    have each : PlainItems depth (media.map Media.toJson) := by
      induction media with
      | nil => trivial
      | cons kind rest ih => exact ⟨by cases depth <;> trivial,ih⟩
    exact each

end Pads

namespace Catalog.Document
open Json

theorem readPads_tree (pads : Pads) : readPads pads.toJson.tree = .ok pads := by
  rw [readPads,ofTree_tree depthLimit _ (pads.toJson_plain 126)]
  exact congrArg (Except.mapError _) pads.ofJson_toJson

theorem readFlags_tree (flags : FilterFlags) : readFlags (writeFlags flags).tree = .ok flags := by
  have found : (writeFlags flags).tree.fields ["timeline","slice_threads","command"] = .ok _ :=
    fields_tree rfl (by decide)
  rw [readFlags,found]
  rfl

theorem readSpec_tree (spec : FilterSpec) : readSpec (writeSpec spec).tree = .ok spec := by
  have found : (writeSpec spec).tree.fields ["name","description","inputs","outputs","flags"] =
      .ok _ := fields_tree rfl (by decide)
  have name : Tree.asText (tree (.text spec.name)) = .ok spec.name := textOf_pieces spec.name
  have description : Tree.asText (tree (.text spec.description)) = .ok spec.description :=
    textOf_pieces spec.description
  rw [readSpec,found]
  simp [Fields.need,Fields.get,List.lookup_cons,name,description,readPads_tree,readFlags_tree,bind,
    Except.bind,pure,Except.pure]

theorem writeSpec_plain (spec : FilterSpec) : Plain 3 (writeSpec spec) :=
  ⟨trivial,trivial,spec.inputs.toJson_plain 1,spec.outputs.toJson_plain 1,
    ⟨trivial,trivial,trivial,trivial⟩,trivial⟩

theorem write_plain (catalog : Catalog) : Plain 5 (write catalog) := by
  have each (filters : Table FilterSpec) :
      PlainItems 3 (filters.map fun entry => writeSpec entry.2) := by
    induction filters with
    | nil => trivial
    | cons entry rest ih => exact ⟨writeSpec_plain entry.2,ih⟩
  exact ⟨each catalog.filters,trivial⟩

theorem mapM_readSpec (filters : Table FilterSpec) :
    (trees (filters.map fun entry => writeSpec entry.2)).mapM readSpec =
      .ok (filters.map (·.2)) := by
  induction filters with
  | nil => rfl
  | cons entry rest ih =>
    rw [List.map_cons,trees,List.mapM_cons,readSpec_tree,ih]
    rfl

theorem readSpecs_write (catalog : Catalog) :
    readSpecs (write catalog).indented = .ok (catalog.filters.map (·.2)) := by
  have found : (write catalog).tree.fields ["filters"] = .ok _ := fields_tree rfl (by decide)
  simp only [readSpecs,parse?_indented (write_plain catalog),found]
  exact mapM_readSpec catalog.filters

/-- A written catalog adds to the built-in one what the catalog knows. -/
theorem read_write (specs : List FilterSpec) :
    read (write (empty.extend specs)).indented = .ok (builtin.extend specs) := by
  rw [read,readSpecs_write]
  exact congrArg Except.ok (extend_collected builtin_filed specs)

end Catalog.Document
end MediaGraph
