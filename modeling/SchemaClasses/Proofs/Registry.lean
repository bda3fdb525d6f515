import Mathlib.Data.List.Dedup
import Mathlib.Data.List.Nodup
import SchemaClasses.Extension

/-!
# What a registry records

A registry is filled by attaching one extension after another to a title. It records the set of what
has been attached: every title once, and for each title its attachments once, both in the order in
which they first came. Its size counts the different attachments, each with its title.
-/

namespace SchemaClasses

namespace Ordered

variable {α β : Type} [DecidableEq α]

/-- The members of a list, each once, in the order in which they first come. -/
structure Firsts (xs members : List α) : Prop where
  nodup : members.Nodup
  mem : ∀ x, x ∈ members ↔ x ∈ xs
  order : members.Pairwise fun x y => xs.idxOf x < xs.idxOf y

theorem Firsts.nil : Firsts ([] : List α) [] :=
  ⟨List.nodup_nil, fun _ => Iff.rfl, List.Pairwise.nil⟩

theorem Firsts.concat {xs members : List α} (h : Firsts xs members) (x : α) :
    Firsts (xs ++ [x]) (insert members x) where
  nodup := nodup_insert h.nodup x
  mem := by
    intro y
    rw [mem_insert, h.mem, List.mem_append, List.mem_singleton]
  order := by
    have hbefore : members.Pairwise fun y z => (xs ++ [x]).idxOf y < (xs ++ [x]).idxOf z := by
      refine h.order.imp_of_mem fun {y z} hy hz hlt => ?_
      rwa [List.idxOf_append_of_mem ((h.mem y).mp hy), List.idxOf_append_of_mem ((h.mem z).mp hz)]
    rw [insert]
    split
    · exact hbefore
    · rename_i hnew
      rw [h.mem] at hnew
      refine List.pairwise_append.mpr ⟨hbefore, List.pairwise_singleton .., fun y hy z hz => ?_⟩
      obtain rfl := List.mem_singleton.mp hz
      have hy := (h.mem y).mp hy
      rw [List.idxOf_append_of_mem hy, List.idxOf_append_of_notMem hnew]
      exact Nat.lt_add_right _ (List.idxOf_lt_length_of_mem hy)

theorem Firsts.eq_nil_iff {xs members : List α} (h : Firsts xs members) :
    members = [] ↔ xs = [] := by
  simp only [List.eq_nil_iff_forall_not_mem, h.mem]

theorem get?_of_mem {entries : List (α × β)} (distinct : (entries.map (·.1)).Nodup)
    {entry : α × β} (h : entry ∈ entries) : get? entries entry.1 = some entry.2 := by
  induction entries with
  | nil => cases h
  | cons first rest ih =>
    obtain ⟨hfirst, hrest⟩ := List.nodup_cons.mp distinct
    rcases List.mem_cons.mp h with rfl | hmem
    · simp [get?]
    · have hne : first.1 ≠ entry.1 := fun heq =>
        hfirst (List.mem_map.mpr ⟨entry, hmem, heq.symm⟩)
      simp [get?, hne, ih hrest hmem]

end Ordered

namespace Registry

variable {registry : Registry} {given : List (String × Attachment)}

theorem forHost_attach (registry : Registry) (title : String) (a : Attachment) (other : String) :
    (registry.attach title a).forHost other =
      if title = other then Ordered.insert (registry.forHost title) a
      else registry.forHost other := by
  rw [attach, forHost, Ordered.get?_put]
  split <;> rfl

def attachAll (registry : Registry) (given : List (String × Attachment)) : Registry :=
  given.foldl (fun registry entry => registry.attach entry.1 entry.2) registry

theorem attachAll_append (registry : Registry) (given more : List (String × Attachment)) :
    registry.attachAll (given ++ more) = (registry.attachAll given).attachAll more :=
  List.foldl_append ..

def entries (registry : Registry) : List (String × Attachment) :=
  registry.hosts.flatMap fun host => host.2.map (host.1, ·)

/-- The registry has what has been attached to titles one after another. -/
structure Records (registry : Registry) (given : List (String × Attachment)) : Prop where
  titles : Ordered.Firsts (given.map (·.1)) (registry.hosts.map (·.1))
  forHost : ∀ title,
    Ordered.Firsts ((given.filter (·.1 = title)).map (·.2)) (registry.forHost title)

namespace Records

theorem empty : Registry.empty.Records [] := ⟨.nil, fun _ => .nil⟩

theorem attach (h : registry.Records given) (title : String) (a : Attachment) :
    (registry.attach title a).Records (given ++ [(title, a)]) where
  titles := by
    rw [Registry.attach, Ordered.keys_put, List.map_append]
    exact h.titles.concat title
  forHost := by
    intro other
    rw [forHost_attach, List.filter_append, List.map_append]
    by_cases heq : title = other
    · subst heq
      simpa using (h.forHost title).concat a
    · simpa [heq] using h.forHost other

theorem attachAll (h : registry.Records given) (more : List (String × Attachment)) :
    (registry.attachAll more).Records (given ++ more) := by
  induction more generalizing registry given with
  | nil =>
    rw [List.append_nil]
    exact h
  | cons entry more ih =>
    have hrest := ih (h.attach entry.1 entry.2)
    rwa [List.append_assoc] at hrest

theorem mem_forHost (h : registry.Records given) {title : String} {a : Attachment} :
    a ∈ registry.forHost title ↔ (title, a) ∈ given := by
  rw [(h.forHost title).mem]
  simp

theorem forHost_of_mem (h : registry.Records given) {host : String × List Attachment}
    (hhost : host ∈ registry.hosts) : registry.forHost host.1 = host.2 := by
  rw [Registry.forHost, Ordered.get?_of_mem h.titles.nodup hhost, Option.getD_some]

theorem mem_entries (h : registry.Records given) {entry : String × Attachment} :
    entry ∈ registry.entries ↔ entry ∈ given := by
  obtain ⟨title, a⟩ := entry
  rw [← h.mem_forHost, Registry.entries, List.mem_flatMap]
  constructor
  · rintro ⟨host, hhost, hentry⟩
    obtain ⟨b, hb, heq⟩ := List.mem_map.mp hentry
    obtain ⟨rfl, rfl⟩ := Prod.mk.inj heq
    rwa [h.forHost_of_mem hhost]
  · intro ha
    cases hhost : Ordered.get? registry.hosts title with
    | none => simp [Registry.forHost, hhost] at ha
    | some attached =>
      rw [Registry.forHost, hhost, Option.getD_some] at ha
      exact ⟨_, Ordered.mem_of_get? hhost, List.mem_map_of_mem ha⟩

theorem nodup_entries (h : registry.Records given) : registry.entries.Nodup := by
  rw [Registry.entries, List.nodup_flatMap]
  constructor
  · intro host hhost
    have hnodup : host.2.Nodup := h.forHost_of_mem hhost ▸ (h.forHost host.1).nodup
    exact hnodup.map fun _ _ heq => (Prod.mk.inj heq).2
  · refine (List.pairwise_map.mp h.titles.nodup).imp fun {first second} hne => ?_
    rintro ⟨title, a⟩ hfirst hsecond
    obtain ⟨_, -, heq⟩ := List.mem_map.mp hfirst
    obtain ⟨_, -, heq'⟩ := List.mem_map.mp hsecond
    exact hne ((Prod.mk.inj heq).1.trans (Prod.mk.inj heq').1.symm)

theorem size (h : registry.Records given) : registry.size = given.dedup.length := by
  have hlength : registry.size = registry.entries.length := by
    simp [Registry.size, Registry.entries, List.length_flatMap]
  have hperm : registry.entries.Perm given.dedup := by
    refine (List.perm_ext_iff_of_nodup h.nodup_entries given.nodup_dedup).mpr fun entry => ?_
    rw [h.mem_entries, List.mem_dedup]
  rw [hlength, hperm.length_eq]

theorem isEmpty (h : registry.Records given) :
    registry.isEmpty = true ↔ registry.size = 0 := by
  rw [Registry.isEmpty, List.isEmpty_iff, h.size, List.length_eq_zero_iff, List.dedup_eq_nil,
    ← List.map_eq_nil_iff, h.titles.eq_nil_iff, List.map_eq_nil_iff]

end Records

end Registry

end SchemaClasses
