import SchemaClasses.Generation
import SchemaClasses.Proofs.Drafting.Complete
import SchemaClasses.Proofs.Drafting.Documented

/-!
# What a run ends with

A run that resolves a root schema ends with the table of a complete draft. Each class of the table
has been drafted for a document without links, and that document is what the source of the class
means in the end.
-/

namespace SchemaClasses

open Drafting

variable {options : RunOptions} {files : FileTree} {downloads : List (String × String)}
variable {depth : Nat} {run : Run} {draft : Draft}

/-- A run ends with a table, and with a draft that has taken steps from the start of the run. -/
structure Run.EndsAt (run : Run) (options : RunOptions) (files : FileTree)
    (downloads : List (String × String)) (draft : Draft) : Prop where
  steps : Steps .known (options.start files downloads) draft
  pending : draft.pending = []
  table : run.table = draft.linking.table
  seeds : ∀ id ∈ run.root :: run.extensionClasses, id < run.table.length

theorem RunOptions.start_orderly (options : RunOptions) (files : FileTree) :
    (options.start files downloads).Orderly [] :=
  Draft.new_orderly _ _ _

theorem RunOptions.resolveAll_inv (policy : Policy)
    (h : options.resolveAll depth (options.start files downloads) = some (.ok run, draft)) :
    ∃ grafted between,
      graft depth options.settings.extensions (options.start files downloads) =
        some (grafted, between) ∧
      run.extensionClasses = grafted.classes ∧ run.registry = grafted.registry ∧
      Completes policy between [run.root] draft ∧ run.table = draft.linking.table ∧
      run.collisions = draft.catalog.collisions.length := by
  unfold resolveAll at h
  obtain ⟨grafted, between, hgraft, h⟩ := bind_inv h
  obtain ⟨found, resolved, hresolve, h⟩ := bind_inv h
  cases found with
  | none =>
    obtain ⟨heq, -⟩ := pure_inv h
    cases heq
  | some root =>
    dsimp only at h
    rw [get_bind] at h
    obtain ⟨table, finished, hfinish, h⟩ := bind_inv h
    obtain ⟨_, told, htell, h⟩ := bind_inv h
    obtain ⟨heq, rfl⟩ := pure_inv h
    obtain rfl := Except.ok.inj heq
    have hgrafted : Completes .known _ _ between :=
      graft_completes rfl Policy.known_allowsAll hgraft
    have hresolved : Completes policy _ _ resolved := resolve_completes
      (hgrafted.steps.orderly (options.start_orderly files)) hgrafted.pending hresolve
    obtain ⟨drained, hdrain, htable, hwarn⟩ := finish_inv hfinish
    obtain rfl := drain_idle hresolved.pending hdrain
    have htold := (hresolved.looks (tell_looks hwarn)).looks (tell_looks htell)
    obtain rfl := tell_inv hwarn
    obtain rfl := tell_inv htell
    exact ⟨grafted, between, hgraft, rfl, rfl, htold, htable, rfl⟩

theorem RunOptions.resolveAll_steps (policy : Policy)
    (allows : policy.AllowsAll depth ⟨[], .empty⟩ options.settings.extensions
      (options.start files downloads))
    (h : options.resolveAll depth (options.start files downloads) = some (.ok run, draft)) :
    Completes policy (options.start files downloads) (run.extensionClasses ++ [run.root]) draft ∧
      run.table = draft.linking.table ∧
      run.collisions = draft.catalog.collisions.length := by
  obtain ⟨grafted, between, hgraft, hclasses, -, hlater, htable, hcollisions⟩ :=
    RunOptions.resolveAll_inv policy h
  rw [hclasses]
  exact ⟨(graft_completes rfl allows hgraft).trans hlater, htable, hcollisions⟩

theorem RunOptions.resolveAll_known
    (h : options.resolveAll depth (options.start files downloads) = some (.ok run, draft)) :
    Completes .known (options.start files downloads) (run.extensionClasses ++ [run.root]) draft ∧
      run.table = draft.linking.table ∧
      run.collisions = draft.catalog.collisions.length :=
  RunOptions.resolveAll_steps .known Policy.known_allowsAll h

theorem RunOptions.resolveAll_endsAt
    (h : options.resolveAll depth (options.start files downloads) = some (.ok run, draft)) :
    run.EndsAt options files downloads draft := by
  obtain ⟨completes, htable, -⟩ := RunOptions.resolveAll_known h
  refine ⟨completes.steps, completes.pending, htable, fun id hid => ?_⟩
  have hmem : id ∈ run.extensionClasses ++ [run.root] := by
    simpa [or_comm] using hid
  obtain ⟨key, holds⟩ := completes.holds id hmem
  rw [htable, Linking.length_table, Draft.linking, List.length_map]
  exact holds.lt

namespace Run.EndsAt

theorem orderly (h : run.EndsAt options files downloads draft) : draft.Orderly [] :=
  h.steps.orderly (options.start_orderly files)

theorem complete (h : run.EndsAt options files downloads draft) : draft.Complete :=
  h.orderly.complete h.pending

theorem documented (h : run.EndsAt options files downloads draft) : draft.Documented :=
  h.steps.documented not_false fun _ hplace => absurd hplace List.not_mem_nil

theorem class_inv (h : run.EndsAt options files downloads draft) {id : ClassId}
    {c : ClassDescriptor}
    (hc : run.table.get? id = some c) :
    ∃ place drafted, draft.places[id]? = some place ∧ draft.linking.drafts[id]? = some drafted ∧
      Drafted place.document draft drafted ∧ c = draft.linking.classOf id drafted := by
  rw [h.table] at hc
  exact h.orderly.class_inv h.pending hc

theorem place_inv (h : run.EndsAt options files downloads draft) {id : ClassId}
    {c : ClassDescriptor}
    (hc : run.table.get? id = some c) :
    ∃ place drafted, draft.places[id]? = some place ∧ place.drafted = some drafted ∧
      Drafted place.document draft drafted ∧ c = draft.linking.classOf id drafted := by
  obtain ⟨place, drafted, hplace, hdrafts, hdrafted, heq⟩ := h.class_inv hc
  refine ⟨place, drafted, hplace, ?_, hdrafted, heq⟩
  have hlinking := congrArg (·[id]?) h.complete.linking_drafts
  simpa [hplace, hdrafts, eq_comm] using hlinking

theorem document_inv (h : run.EndsAt options files downloads draft) {c : ClassDescriptor}
    (hc : c ∈ run.table) :
    ∃ document, draft.catalog.Knows document ∧ document.key = c.source ∧
      document.title? = c.title := by
  obtain ⟨id, hid⟩ := List.mem_iff_getElem?.mp hc
  obtain ⟨place, drafted, hplace, -, hdrafted, rfl⟩ := h.place_inv hid
  exact ⟨place.document, h.documented place (List.mem_of_getElem? hplace), hdrafted.source.symm,
    hdrafted.title.symm⟩

theorem document?_source (h : run.EndsAt options files downloads draft) {place : Place}
    {id : ClassId}
    {drafted : DraftClass} (hplace : draft.places[id]? = some place)
    (hdrafted : Drafted place.document draft drafted) :
    draft.catalog.document? drafted.source = some place.document := by
  rw [hdrafted.source]
  exact h.documented place (List.mem_of_getElem? hplace)

theorem place_of_holds (h : run.EndsAt options files downloads draft) {id : ClassId}
    {document : Document}
    (known : draft.catalog.Knows document) (holds : draft.Holds id document.key) :
    ∃ place, draft.places[id]? = some place ∧ place.document = document := by
  obtain ⟨place, hplace, hkey⟩ := Option.map_eq_some_iff.mp holds
  exact ⟨place, hplace, (h.documented place (List.mem_of_getElem? hplace)).unique known hkey⟩

theorem get?_of_lt (h : run.EndsAt options files downloads draft) {id : ClassId}
    (hid : id < draft.places.length) : ∃ k, run.table.get? id = some k := by
  have hlt : id < run.table.length := by
    rwa [h.table, Linking.length_table, Draft.linking, List.length_map]
  exact ⟨run.table[id], List.getElem?_eq_getElem hlt⟩

theorem sources_nodup (h : run.EndsAt options files downloads draft) :
    (run.table.map (·.source)).Nodup := by
  have hsources : run.table.map (·.source) = draft.keys := by
    refine List.ext_getElem? fun id => ?_
    rw [List.getElem?_map, Draft.keys, List.getElem?_map]
    cases hc : run.table.get? id with
    | some c =>
      obtain ⟨place, drafted, hplace, -, hclass, rfl⟩ := h.class_inv hc
      have hc : run.table[id]? = some _ := hc
      rw [hc, hplace]
      exact congrArg some hclass.source
    | none =>
      have hc : run.table[id]? = none := hc
      have hge : draft.places.length ≤ id := by
        by_contra hlt
        obtain ⟨k, hk⟩ := h.get?_of_lt (Nat.not_le.mp hlt)
        exact absurd (hk.symm.trans hc) (by simp)
      rw [hc, List.getElem?_eq_none hge]
      rfl
  rw [hsources]
  exact h.complete.distinct

end Run.EndsAt

theorem RunOptions.run_of_map {α : Type} {f : Run → α} {a : α}
    (h : ((options.resolveAll depth (options.start files)).bind
      fun result => result.1.toOption.map f) = some a) :
    ∃ run after, options.resolveAll depth (options.start files) = some (.ok run, after) ∧
      f run = a := by
  obtain ⟨⟨result, after⟩, hrun, ha⟩ := Option.bind_eq_some_iff.mp h
  cases result with
  | error => cases ha
  | ok run => exact ⟨run, after, hrun, Option.some.inj ha⟩

def RunOptions.onSchemas (schema : String) : RunOptions :=
  ⟨schema, ["/s"], [], .empty, .ofNamespace "N"⟩

end SchemaClasses
