import SchemaClasses.Proofs.Catalog.Keys
import SchemaClasses.Proofs.Catalog.Sources

/-!
# Plain trees

A tree of files is plain when its paths cannot be mistaken for keys of other documents, and all
references that are written in its schemas are plain. What a tree lists is enough to see that: the
names of its nodes, and the texts in its files.
-/

namespace SchemaClasses

/-- No path has a hash, and every reference in a schema is plain. -/
structure FileTree.IsPlain (files : FileTree) : Prop where
  paths : ¬files.HashInPath
  references : ∀ {key reference : String} {schema part : Json}, files.IsPath key →
    (files.readText? key).bind Json.read? = some schema → part.Occurs schema →
    part.string? "$ref" = some reference → Location.IsPlain reference

def FileNode.texts : FileNode → List String
  | .file (some text) => ((Json.read? text).map (·.texts)).getD []
  | _ => []

namespace FileTree

variable {files : FileTree} {place next : List String}

theorem mem_spell {c : Char} (h : c ∈ (spell place).toList) :
    c = '/' ∨ ∃ name ∈ place, c ∈ name.toList := by
  have hjoin (names : List (List Char)) (hmem : c ∈ ['/'].intercalate names) :
      c = '/' ∨ ∃ name ∈ names, c ∈ name := by
    induction names with
    | nil => simp [List.intercalate] at hmem
    | cons name rest ih =>
      cases rest with
      | nil => exact .inr ⟨name, by simp, by simpa [List.intercalate] using hmem⟩
      | cons other rest =>
        have hsplit : ['/'].intercalate (name :: other :: rest) =
            name ++ '/' :: ['/'].intercalate (other :: rest) := by simp [List.intercalate]
        rw [hsplit, List.mem_append, List.mem_cons] at hmem
        rcases hmem with hname | rfl | hrest
        · exact .inr ⟨name, by simp, hname⟩
        · exact .inl rfl
        · rcases ih hrest with heq | ⟨found, hfound, hmem⟩
          · exact .inl heq
          · exact .inr ⟨found, List.mem_cons_of_mem _ hfound, hmem⟩
  rw [toList_spell, List.mem_cons] at h
  rcases h with heq | hmem
  · exact .inl heq
  · rcases hjoin _ hmem with heq | ⟨found, hfound, hc⟩
    · exact .inl heq
    · obtain ⟨name, hname, rfl⟩ := List.mem_map.mp hfound
      exact .inr ⟨name, hname, hc⟩

theorem node?_inv {node : FileNode} (h : files.node? place = some node) :
    place = [] ∧ node = .directory ∨ (place, node) ∈ files.nodes := by
  unfold node? at h
  split at h
  · exact .inl ⟨List.isEmpty_iff.mp ‹_›, (Option.some.inj h).symm⟩
  · exact .inr (Ordered.mem_of_get? h)

theorem follow_cases {component : String} (h : files.follow place component = .ok next) :
    next = place ∨ next = place.dropLast ∨ ∃ node, files.node? next = some node := by
  unfold follow at h
  split at h
  · cases h
  · cases h
  · split at h
    · exact .inl (Except.ok.inj h).symm
    split at h
    · exact .inr (.inl (Except.ok.inj h).symm)
    split at h
    · cases h
    split at h
    · rename_i hnode
      obtain rfl := Except.ok.inj h
      exact .inr (.inr (Option.isSome_iff_exists.mp hnode))
    · cases h

theorem follow_names {P : String → Prop} {component : String}
    (hnodes : ∀ node ∈ files.nodes, ∀ name ∈ node.1, P name) (hplace : ∀ name ∈ place, P name)
    (h : files.follow place component = .ok next) : ∀ name ∈ next, P name := by
  obtain rfl | rfl | ⟨node, hnode⟩ := follow_cases h
  · exact hplace
  · exact fun name hname => hplace name (List.dropLast_subset _ hname)
  · rcases node?_inv hnode with ⟨rfl, -⟩ | hmem
    · simp
    · exact hnodes _ hmem

theorem not_hashInPath (hnodes : ∀ node ∈ files.nodes, ∀ name ∈ node.1, '#' ∉ name.toList)
    (hstart : ∀ name ∈ files.workingDirectory, '#' ∉ name.toList) : ¬files.HashInPath := by
  rintro ⟨key, ⟨location, h⟩, hmem⟩
  have hfrom : ∀ name ∈ files.startOf location, '#' ∉ name.toList := by
    unfold startOf
    split
    · simp
    · exact hstart
  obtain ⟨place, hplace, rfl⟩ := canonical?_inv h
  rcases mem_spell hmem with heq | ⟨name, hname, hc⟩
  · cases heq
  · exact followAllShort_keeps (fun _ => follow_names hnodes) hfrom hplace name hname hc

theorem readText?_inv {path text : String} (h : files.readText? path = some text) :
    ∃ node ∈ files.nodes, node.2 = .file (some text) := by
  unfold readText? at h
  split at h
  · cases h
  · rename_i place hplace
    split at h
    · rename_i found hnode
      obtain rfl := h
      rcases node?_inv hnode with ⟨-, heq⟩ | hmem
      · cases heq
      · exact ⟨_, hmem, rfl⟩
    · cases h

def texts (files : FileTree) : List String := files.nodes.flatMap (·.2.texts)

theorem texts_subset {path : String} {schema : Json}
    (h : (files.readText? path).bind Json.read? = some schema) : schema.texts ⊆ files.texts := by
  obtain ⟨text, htext, hread⟩ := Option.bind_eq_some_iff.mp h
  obtain ⟨node, hnode, hfile⟩ := readText?_inv htext
  intro found hfound
  refine List.mem_flatMap.mpr ⟨node, hnode, ?_⟩
  rw [hfile, FileNode.texts, hread]
  exact hfound

/-- A tree is plain when no name has a hash and no text in a schema is a reference that is not
plain. -/
theorem isPlain_of_texts (hnodes : ∀ node ∈ files.nodes, ∀ name ∈ node.1, '#' ∉ name.toList)
    (hstart : ∀ name ∈ files.workingDirectory, '#' ∉ name.toList)
    (htexts : ∀ node ∈ files.nodes, ∀ text ∈ node.2.texts, Location.IsPlain text) :
    files.IsPlain where
  paths := not_hashInPath hnodes hstart
  references := by
    intro key reference schema part hpath hread hpart href
    have hmem := texts_subset hread (hpart.texts_subset (Json.mem_texts_of_string? href))
    obtain ⟨node, hnode, htext⟩ := List.mem_flatMap.mp hmem
    exact htexts node hnode reference htext

end FileTree

end SchemaClasses
