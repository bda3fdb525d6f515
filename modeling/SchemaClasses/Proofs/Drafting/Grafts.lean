import SchemaClasses.Extension.Grafting
import SchemaClasses.Proofs.Drafting.Inversion
import SchemaClasses.Proofs.Registry

/-!
# Ends of grafting

Attaching an extension to a host ends in one of three ways, and so does grafting an extension, but
for classes that have no name yet. What is in the registry is never taken out again.
-/

namespace SchemaClasses

namespace Registry

variable {registry : Registry} {title : String} {a b : Attachment}

theorem mem_forHost_attach {other : String} :
    b ∈ (registry.attach title a).forHost other ↔
      b ∈ registry.forHost other ∨ title = other ∧ b = a := by
  rw [forHost_attach]
  split
  · rename_i heq
    subst heq
    simp [Ordered.mem_insert]
  · rename_i hne
    simp [hne]

end Registry

namespace Drafting

variable {draft after : Draft} {depth : Nat}

/-- What attaching an extension to a host does to the registry. -/
inductive Attaches (a : Attachment) (host : String) (registry : Registry) (draft : Draft) :
    Registry → Draft → Prop
  | missing {loaded} : load (host ++ ".schema.json") draft = some (none, loaded) →
      Attaches a host registry draft registry
        { loaded with
          catalog := loaded.catalog.warn
            (.hostMissing a.extensionName (host ++ ".schema.json")) }
  | untitled {document loaded} :
      load (host ++ ".schema.json") draft = some (some document, loaded) →
      document.title? = none →
      Attaches a host registry draft registry
        { loaded with
          catalog := loaded.catalog.warn
            (.hostUntitled a.extensionName (host ++ ".schema.json")) }
  | titled {document title loaded} :
      load (host ++ ".schema.json") draft = some (some document, loaded) →
      document.title? = some title →
      Attaches a host registry draft (registry.attach title a)
        { loaded with
          catalog := loaded.catalog.tell
            [.notice (.attached a.extensionName a.className title)] }

theorem attachTo_attaches {registry attached : Registry} {a : Attachment} {host : String}
    (h : attachTo registry a host draft = some (attached, after)) :
    Attaches a host registry draft attached after := by
  unfold attachTo at h
  obtain ⟨found, loaded, hload, h⟩ := bind_inv h
  cases found with
  | none =>
    obtain ⟨rfl, rfl⟩ := warn_pure_inv h
    exact .missing hload
  | some document =>
    cases htitle : document.title? with
    | none =>
      simp only [htitle] at h
      obtain ⟨rfl, rfl⟩ := warn_pure_inv h
      exact .untitled hload htitle
    | some title =>
      simp only [htitle] at h
      obtain ⟨_, told, htell, h⟩ := bind_inv h
      obtain rfl := tell_inv htell
      obtain ⟨rfl, rfl⟩ := pure_inv h
      exact .titled hload htitle

/-- What grafting an extension does, where its class has a name. -/
inductive Grafts (depth : Nat) (e : ExtensionSettings) (grafted : Grafted) (draft : Draft) :
    Grafted → Draft → Prop
  | missing {loaded} :
      onCatalog (·.loadExtension e.schema (some e.extensionName)) draft = some (none, loaded) →
      Grafts depth e grafted draft grafted
        { loaded with catalog := loaded.catalog.warn (.extensionMissing e.extensionName e.schema) }
  | unresolved {document loaded resolved} :
      onCatalog (·.loadExtension e.schema (some e.extensionName)) draft =
        some (some document, loaded) →
      resolveExtension depth document ⟨e.className, e.extensionName⟩ loaded =
        some (none, resolved) →
      Grafts depth e grafted draft grafted
        { resolved with
          catalog := resolved.catalog.warn (.extensionUnresolved e.extensionName e.schema) }
  | unnamed {document loaded id resolved} :
      onCatalog (·.loadExtension e.schema (some e.extensionName)) draft =
        some (some document, loaded) →
      resolveExtension depth document ⟨e.className, e.extensionName⟩ loaded =
        some (some id, resolved) → resolved.typeName? id = none →
      Grafts depth e grafted draft ⟨grafted.classes ++ [id], grafted.registry⟩ resolved
  | attached {document loaded id resolved typeName registry after} :
      onCatalog (·.loadExtension e.schema (some e.extensionName)) draft =
        some (some document, loaded) →
      resolveExtension depth document ⟨e.className, e.extensionName⟩ loaded =
        some (some id, resolved) → resolved.typeName? id = some typeName →
      e.attachTo.foldlM (attachTo · ⟨e.extensionName, resolved.naming.qualified typeName⟩)
        grafted.registry resolved = some (registry, after) →
      Grafts depth e grafted draft ⟨grafted.classes ++ [id], registry⟩ after

theorem graftOne_grafts {grafted result : Grafted} {e : ExtensionSettings}
    (h : graftOne depth grafted e draft = some (result, after)) :
    Grafts depth e grafted draft result after := by
  unfold graftOne at h
  obtain ⟨found, loaded, hload, h⟩ := bind_inv h
  cases found with
  | none =>
    obtain ⟨rfl, rfl⟩ := warn_pure_inv h
    exact .missing hload
  | some document =>
    obtain ⟨found, resolved, hresolve, h⟩ := bind_inv h
    cases found with
    | none =>
      obtain ⟨rfl, rfl⟩ := warn_pure_inv h
      exact .unresolved hload hresolve
    | some id =>
      dsimp only at h
      rw [get_bind] at h
      cases hname : resolved.typeName? id with
      | none =>
        simp only [hname] at h
        obtain ⟨rfl, rfl⟩ := pure_inv h
        exact .unnamed hload hresolve hname
      | some typeName =>
        simp only [hname] at h
        obtain ⟨registry, attached, hattach, h⟩ := bind_inv h
        obtain ⟨rfl, rfl⟩ := pure_inv h
        exact .attached hload hresolve hname hattach

section

variable {grafted result : Grafted} {e : ExtensionSettings} {document : Document}
  {loaded resolved : Draft}

theorem Grafts.resolves (h : Grafts depth e grafted draft result after)
    (hload : onCatalog (·.loadExtension e.schema (some e.extensionName)) draft =
      some (some document, loaded)) :
    ∃ found resolved,
      resolveExtension depth document ⟨e.className, e.extensionName⟩ loaded =
        some (found, resolved) := by
  cases h with
  | missing hmissing => cases hload.symm.trans hmissing
  | unresolved hload' hresolve | unnamed hload' hresolve | attached hload' hresolve =>
    cases hload.symm.trans hload'
    exact ⟨_, _, hresolve⟩

theorem Grafts.attached_inv (h : Grafts depth e grafted draft result after)
    (hload : onCatalog (·.loadExtension e.schema (some e.extensionName)) draft =
      some (some document, loaded)) {id : ClassId}
    (hresolve : resolveExtension depth document ⟨e.className, e.extensionName⟩ loaded =
      some (some id, resolved)) {typeName : String}
    (hname : resolved.typeName? id = some typeName) :
    result.classes = grafted.classes ++ [id] ∧
      e.attachTo.foldlM (attachTo · ⟨e.extensionName, resolved.naming.qualified typeName⟩)
        grafted.registry resolved = some (result.registry, after) := by
  cases h with
  | missing hmissing => cases hload.symm.trans hmissing
  | unresolved hload' hlost =>
    cases hload.symm.trans hload'
    cases hresolve.symm.trans hlost
  | unnamed hload' hresolve' hnone =>
    cases hload.symm.trans hload'
    cases hresolve.symm.trans hresolve'
    cases hname.symm.trans hnone
  | attached hload' hresolve' hname' hattach =>
    cases hload.symm.trans hload'
    cases hresolve.symm.trans hresolve'
    cases hname.symm.trans hname'
    exact ⟨rfl, hattach⟩

end

/-! ### The registry keeps what it has -/

section

variable {title : String} {b : Attachment}

theorem Attaches.keeps {registry attached : Registry} {a : Attachment} {host : String}
    (h : Attaches a host registry draft attached after) (hb : b ∈ registry.forHost title) :
    b ∈ attached.forHost title := by
  cases h with
  | missing | untitled => exact hb
  | titled => exact Registry.mem_forHost_attach.mpr (.inl hb)

/-- A host that is found and has a title has the attachment afterwards. -/
theorem Attaches.listed {registry attached : Registry} {a : Attachment} {host : String}
    {document : Document} (h : Attaches a host registry draft attached after)
    (hfound : (draft.catalog.load (host ++ ".schema.json")).1 = some document)
    (htitle : document.title? = some title) : a ∈ attached.forHost title := by
  cases h with
  | missing hload => cases (load_inv hload).1.trans hfound
  | untitled hload hnone =>
    cases (load_inv hload).1.trans hfound
    cases hnone.symm.trans htitle
  | titled hload hsome =>
    cases (load_inv hload).1.trans hfound
    cases hsome.symm.trans htitle
    exact Registry.mem_forHost_attach.mpr (.inr ⟨rfl, rfl⟩)

theorem attachAll_keeps {hosts : List String} {registry attached : Registry} {a : Attachment}
    (h : hosts.foldlM (attachTo · a) registry draft = some (attached, after))
    (hb : b ∈ registry.forHost title) : b ∈ attached.forHost title := by
  induction hosts generalizing registry draft with
  | nil =>
    obtain ⟨rfl, rfl⟩ := pure_inv h
    exact hb
  | cons host hosts ih =>
    rw [List.foldlM_cons] at h
    obtain ⟨between, middle, hfirst, h⟩ := bind_inv h
    exact ih h ((attachTo_attaches hfirst).keeps hb)

theorem attachAll_append_inv {past later : List String} {host : String}
    {registry attached : Registry} {a : Attachment}
    (h : (past ++ host :: later).foldlM (attachTo · a) registry draft = some (attached, after)) :
    ∃ between during result next,
      past.foldlM (attachTo · a) registry draft = some (between, during) ∧
      attachTo between a host during = some (result, next) ∧
      later.foldlM (attachTo · a) result next = some (attached, after) := by
  rw [List.foldlM_append] at h
  obtain ⟨between, during, hpast, h⟩ := bind_inv h
  rw [List.foldlM_cons] at h
  obtain ⟨result, next, hone, hlater⟩ := bind_inv h
  exact ⟨between, during, result, next, hpast, hone, hlater⟩

theorem Grafts.keeps {grafted result : Grafted} {e : ExtensionSettings}
    (h : Grafts depth e grafted draft result after) (hb : b ∈ grafted.registry.forHost title) :
    b ∈ result.registry.forHost title := by
  cases h with
  | missing | unresolved | unnamed => exact hb
  | attached _ _ _ hattach => exact attachAll_keeps hattach hb

theorem graftAll_keeps {extensions : List ExtensionSettings} {grafted result : Grafted}
    (h : extensions.foldlM (graftOne depth) grafted draft = some (result, after))
    (hb : b ∈ grafted.registry.forHost title) : b ∈ result.registry.forHost title := by
  induction extensions generalizing grafted draft with
  | nil =>
    obtain ⟨rfl, rfl⟩ := pure_inv h
    exact hb
  | cons e extensions ih =>
    rw [List.foldlM_cons] at h
    obtain ⟨between, middle, hfirst, h⟩ := bind_inv h
    exact ih h ((graftOne_grafts hfirst).keeps hb)

end

end Drafting

end SchemaClasses
