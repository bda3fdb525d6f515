import SchemaClasses.Proofs.Drafting.Complete
import SchemaClasses.Proofs.Drafting.Covered
import SchemaClasses.Proofs.Drafting.Halting

/-!
# Resolving comes to an end

Resolving a reference drafts classes until none is pending, while each of them may add further ones.
When no object is declared in a schema that is resolved inline, every class that is added has one of
finitely many keys, and no key is used twice, so the pending classes come to an end however the
schemas refer to each other.
-/

namespace SchemaClasses.Drafting

/-- The drafts that resolving a reference comes to while no class is being drafted: when the class
of the reference has its place, and after every class that has been drafted. -/
inductive Passes (reference : String) (draft : Draft) : Draft → Prop
  | interned {document loaded id after} : Ordered.get? draft.resolved reference = none →
      load reference draft = some (some document, loaded) →
      Interns document loaded (some id) after → Passes reference draft after
  | drafted {during id rest depth after} : Passes reference draft during →
      during.pending = id :: rest →
      draftAt depth id { during with pending := rest } = some ((), after) →
      Passes reference draft after

/-- A document is resolved inline while the class at the next pending place is drafted. -/
def ResolvesInline (draft : Draft) (document : Document) : Prop :=
  ∃ first last, Task.Begins draft first ∧ Relation.ReflTransGen Task.Starts first last ∧
    Task.Inlines last document

/-- While a reference is resolved, no object is declared in a document that is resolved inline. -/
def DeclaresOutside (reference : String) (draft : Draft) : Prop :=
  ∀ during document, Passes reference draft during → ResolvesInline during document →
    ¬document.body.HasInlineObject

variable {reference : String} {draft during after : Draft} {depth : Nat}

theorem Passes.steps {policy : Policy} (h : Passes reference draft during) :
    Steps policy draft during := by
  induction h with
  | interned _ hload hid =>
    exact .tail (load_looks hload).steps (.intern (.inr (load_knows hload)) hid)
  | drafted _ hpending hdrafted ih => exact ih.trans (draftAt_steps hpending hdrafted)

theorem Passes.orderly (h : Passes reference draft during) (orderly : draft.Orderly []) :
    during.Orderly [] := by
  have hsteps : Steps .any draft during := h.steps
  exact hsteps.orderly orderly

theorem Passes.covers (h : Passes reference draft during)
    (declares : DeclaresOutside reference draft) : Stock.Covers ⟨draft, reference⟩ during := by
  induction h with
  | interned _ hload hid =>
    have hstart := Stock.covers_start ⟨draft, reference⟩
    exact hid.covers (hstart.load List.mem_cons_self List.mem_cons_self hload) (load_knows hload)
  | drafted hpasses hpending hdrafted ih =>
    refine draftAt_covers hpending ih (fun first hbegins last document hstarts hinlines => ?_)
      hdrafted
    exact declares _ document hpasses ⟨first, last, hbegins, hstarts, hinlines⟩

/-- There are no more places than keys that documents may have. -/
theorem places_le {stock : Stock} (covers : stock.Covers draft) (distinct : draft.keys.Nodup) :
    draft.keys ⊆ stock.keys ∧ draft.places.length ≤ stock.keys.length := by
  have hsubset : draft.keys ⊆ stock.keys := by
    intro key hkey
    obtain ⟨place, hplace, rfl⟩ := List.mem_map.mp hkey
    exact (covers.placed (List.mem_map_of_mem hplace)).key_mem
  refine ⟨hsubset, ?_⟩
  have hle := (List.subperm_of_subset distinct hsubset).length_le
  rwa [Draft.keys, List.length_map] at hle

theorem draftAt_adds {id : ClassId} {u : Unit} (h : draftAt depth id draft = some (u, after)) :
    ∃ added, after.places.length = draft.places.length + added ∧
      after.pending.length = draft.pending.length + added := by
  obtain ⟨-, rfl⟩ | ⟨place, drafted, inner, -, hclass, rfl⟩ := draftAt_inv h
  · exact ⟨0, rfl, rfl⟩
  · have grows := (classOf_classes hclass).grows
    obtain ⟨added, hplaces, hpending, -⟩ := grows.places
    refine ⟨added.length, ?_, ?_⟩
    · simp [Draft.fill, hplaces]
    · simp [Draft.fill, hpending, Nat.add_comm]

/-- Draining comes to an end: for every class that is taken off the pending ones, as many come in as
there are new places, and there is only room for so many. -/
theorem Passes.drain_halts {during : Draft} (h : Passes reference draft during)
    (declares : DeclaresOutside reference draft) (orderly : draft.Orderly []) :
    Halts drain during := by
  refine .succ ?_
  simp only [drain]
  refine .get_bind ?_
  cases hpending : during.pending with
  | nil => exact .pure ()
  | cons id rest =>
    refine .bind (.once rfl) fun hpop => ?_
    obtain rfl := modify_inv hpop
    refine .bind (draftAt_halts id _) fun {depth _ next} hdrafted => ?_
    have hnext : Passes reference draft next := h.drafted hpending hdrafted
    have hroom := places_le (hnext.covers declares) (hnext.orderly orderly).distinct
    obtain ⟨added, hplaces, hadded⟩ := draftAt_adds hdrafted
    have hless : 2 * ((Stock.mk draft reference).keys.length - next.places.length) +
        next.pending.length < 2 * ((Stock.mk draft reference).keys.length - during.places.length) +
        during.pending.length := by
      rw [hpending, List.length_cons]
      dsimp only at hplaces hadded
      omega
    exact hnext.drain_halts declares orderly
termination_by
  2 * ((Stock.mk draft reference).keys.length - during.places.length) + during.pending.length
decreasing_by exact hless

theorem Passes.drained {during : Draft} {u : Unit} (h : Passes reference draft during)
    (hdrain : drain depth during = some (u, after)) : Passes reference draft after := by
  induction depth generalizing during with
  | zero => cases hdrain
  | succ depth ih =>
    obtain ⟨-, rfl⟩ | ⟨id, rest, between, hpending, hdrafted, hdrain⟩ := drain_inv hdrain
    · exact h
    · exact ih (h.drafted hpending hdrafted) hdrain

theorem resolve_halts (declares : DeclaresOutside reference draft) (orderly : draft.Orderly []) :
    Halts (resolve · reference) draft := by
  unfold resolve
  refine .get_bind ?_
  cases hresolved : Ordered.get? draft.resolved reference with
  | some id => exact .pure (some id)
  | none =>
    refine .bind (.once rfl) fun {_ found loaded} hload => ?_
    cases found with
    | none => exact .pure none
    | some document =>
      refine .bind (intern_halts document loaded) fun {_ found interned} hintern => ?_
      cases found with
      | none => exact .pure none
      | some id =>
        have hpasses : Passes reference draft interned :=
          .interned hresolved hload (intern_interns hintern)
        refine .bind (hpasses.drain_halts declares orderly) fun _ => ?_
        exact .bind (.once rfl) fun _ => .pure (some id)

/-- Resolving a reference stays within the stock. -/
theorem resolve_covers {found : Option ClassId} (declares : DeclaresOutside reference draft)
    (h : resolve depth reference draft = some (found, after)) :
    Stock.Covers ⟨draft, reference⟩ after := by
  have hstart := Stock.covers_start ⟨draft, reference⟩
  cases resolve_resolves h with
  | known => exact hstart
  | missing _ hload => exact hstart.load List.mem_cons_self List.mem_cons_self hload
  | lost _ hload hid =>
    exact hid.covers (hstart.load List.mem_cons_self List.mem_cons_self hload) (load_knows hload)
  | @drained _ _ _ _ drained hresolved hload hid hdrain =>
    have hpasses : Passes reference draft drained :=
      (Passes.interned hresolved hload hid).drained hdrain
    exact (hpasses.covers declares).beside drained.following drained.pending _

/-- Whatever has been called on a new draft before, resolving any reference comes to an end, with
one and the same result at every depth from some depth on, as long as no object is declared in a
document that is resolved inline on the way. The keys of all classes are then among finitely many
that are settled at the start, and no two classes have one key. The document of each new class could
be found at the start, or it is a part, less high, of one that has a place before it, or of one that
could be found and that stands for it by links to entries. -/
theorem resolve_terminates {catalog : Catalog} {settings : Settings} {naming : Naming}
    {ids : List ClassId} {draft : Draft} (called : Called (.new catalog settings naming) ids draft)
    {reference : String} (declares : DeclaresOutside reference draft) :
    ∃ found depth after,
      (∀ more, depth ≤ more → resolve more reference draft = some (found, after)) ∧
      after.keys.Nodup ∧ after.keys ⊆ (Stock.mk draft reference).keys ∧
      ∀ (id : Nat) document, draft.places.length ≤ id → after.placed[id]? = some document →
        (Stock.mk draft reference).Finds document ∨
          ∃ owner, document.IsInside owner ∧ (owner ∈ after.placed.take id ∨
            (Stock.mk draft reference).Finds owner ∧
              Relation.TransGen Document.LinksTo owner document) := by
  have completes := called.completes (Draft.new_orderly catalog settings naming) rfl
  have orderly := completes.steps.orderly (Draft.new_orderly catalog settings naming)
  obtain ⟨depth, ⟨found, after⟩, hends⟩ := resolve_halts declares orderly
  have hend := hends depth (Nat.le_refl _)
  have covers := resolve_covers declares hend
  have distinct := (complete_of_called (called.resolve hend)).1.distinct
  refine ⟨found, depth, after, hends, distinct, (places_le covers distinct).1, ?_⟩
  exact fun id document _ hid => (covers.places id document hid).finds_or_isInside

section

variable {files : FileTree} {searchPaths extensionPaths : List String} {settings : Settings}
variable {naming : Naming} {document : Document}

/-- Where no text has a hash, what is resolved inline is a whole file, and no class. -/
theorem ResolvesInline.isFile
    (h : Steps .known (.new (.new files searchPaths extensionPaths) settings naming) draft)
    (paths : ¬files.HashInPath)
    (texts : ∀ schema ∈ files.schemas, ∀ text ∈ schema.texts, '#' ∉ text.toList)
    (hinline : ResolvesInline draft document) :
    isClassLike document.body = false ∧ document.body ∈ files.schemas := by
  have documented := Steps.documented h not_false fun _ hplace => absurd hplace List.not_mem_nil
  have sourced : draft.catalog.Sourced :=
    Steps.sourced h not_false (fun _ hplace => absurd hplace List.not_mem_nil)
      (Catalog.new_sourced files searchPaths extensionPaths [])
  obtain ⟨first, last, hbegins, hstarts, hinlines⟩ := hinline
  have hfirst : draft.catalog.SameTexts first.2.catalog := by
    cases hbegins <;> exact ⟨rfl, rfl⟩
  have hlast := (Steps.sameTexts h).trans (hfirst.trans (Task.sameTexts_of_starts hstarts))
  have inPlace := Task.inPlace_of_starts hstarts (hbegins.inPlace sourced documented)
  obtain ⟨hshape, hleads, hclass, -⟩ := hinlines
  rename_i during document between
  obtain ⟨hsourced, -, key, whole, -, hloaded, hstems⟩ := inPlace
  refine ⟨hclass, ?_⟩
  obtain ⟨part, hpart, href, -⟩ := hstems.string? (PropertyShape.reference_inv hshape) (by decide)
  have hschema := hloaded.mem_schemas
  rw [Catalog.schemas_of_offline hlast.downloads, hlast.files] at hschema
  have hhash := texts whole hschema _ (hpart.texts_subset (Json.mem_texts_of_string? href))
  have hreference := congrArg Prod.snd (Location.splitReference_of_not_mem hhash)
  obtain ⟨hfound, -⟩ := load_inv hleads.loads
  have grows := (load_grows hleads.loads).catalog
  have hlocated := (grows.sameTexts.isLocated_iff _).mpr
    (Catalog.load_isLocated hreference hfound.symm)
  have hafter := hlast.trans grows.sameTexts
  have hloadedSourced := load_lasts Catalog.sourced_lasting hsourced hleads.loads
  have hash := Catalog.not_hashInKey (by rwa [hafter.files]) hafter.downloads
  obtain ⟨body, hread, heq⟩ := hloadedSourced.file hash (load_knows hleads.loads) hlocated
  have hbody := (hlocated.mem_readable hread).2
  rw [Catalog.schemas_of_offline hafter.downloads, hafter.files] at hbody
  rwa [heq]

/-- Where no text has a hash and the files that are no classes have no properties, no object is
declared in what is resolved inline. -/
theorem declaresOutside_of_schemas
    (h : Steps .known (.new (.new files searchPaths extensionPaths) settings naming) draft)
    (paths : ¬files.HashInPath)
    (texts : ∀ schema ∈ files.schemas, ∀ text ∈ schema.texts, '#' ∉ text.toList)
    (bare : ∀ schema ∈ files.schemas, isClassLike schema = false →
      ∀ part ∈ schema.parts, part.get? "properties" = none) :
    DeclaresOutside reference draft := by
  intro during document hpasses hinline hobject
  obtain ⟨hclass, hfile⟩ := hinline.isFile (h.trans hpasses.steps) paths texts
  have hself : document.body.Stems True document.body := .part .self
  obtain ⟨part, hpart, hsome⟩ := hobject.properties hself
  exact hsome (bare document.body hfile hclass part hpart.mem_parts)

end

/-- A class that declares an object inside of itself, over an array of such arrays as come back to
it. -/
def FileTree.loop : FileTree := .ofSchemas
  [("a", .obj [("type", .str "object"), ("properties", .obj [("p", .withProperty "x" .number),
      ("q", .referringTo "b")])]),
    ("b", .obj [("type", .str "array"), ("items", .referringTo "c")]),
    ("c", .obj [("type", .str "array"), ("items", .referringTo "b")])]

/-- Resolving goes around a loop of schemas that have no class and comes to an end, with a class for
the object that is declared in a class. -/
theorem resolve_terminates_loop :
    let draft := Draft.new (.new FileTree.loop ["/s"] []) .empty (.ofNamespace "N")
    Called draft [] draft ∧ DeclaresOutside "a" draft ∧
      (∃ found depth after, ∀ more, depth ≤ more →
        resolve more "a" draft = some (found, after)) ∧
      (resolve 8 "a" draft : Option _).map (fun result => (result.1, result.2.keys)) =
        some (some 0, ["/s/a", "/s/a#inline/p"]) := by
  intro draft
  have hclean : (FileTree.loop.schemas.all fun schema =>
      schema.texts.all fun text => !text.toList.contains '#') = true := by
    decide +kernel
  have hbare : (FileTree.loop.schemas.all fun schema => isClassLike schema ||
      schema.parts.all fun part => (part.get? "properties").isNone) = true := by
    decide +kernel
  have declares : DeclaresOutside "a" draft := by
    refine declaresOutside_of_schemas .refl ?_ (fun schema hschema text htext => ?_)
      fun schema hschema hclass part hpart => ?_
    · refine FileTree.not_hashInPath ?_ ?_ <;> simp [FileTree.loop, FileTree.ofSchemas]
    · simpa using List.all_eq_true.mp (List.all_eq_true.mp hclean schema hschema) text htext
    · have hall := List.all_eq_true.mp hbare schema hschema
      rw [hclass, Bool.false_or] at hall
      exact Option.isNone_iff_eq_none.mp (List.all_eq_true.mp hall part hpart)
  have called : Called draft [] draft := .none
  refine ⟨called, declares, ?_, by decide +kernel⟩
  obtain ⟨found, depth, after, hends, -⟩ := resolve_terminates called declares
  exact ⟨found, depth, after, hends⟩

end SchemaClasses.Drafting
