import SchemaClasses.Proofs.Generation.OutputPaths

/-!
# Lookup by title

The catalog knows the last file of a title by it, but the table is searched from its first class on.
So the class that is found for a title need not be the one of the file that the catalog means: any
class of that title with a smaller id comes before it. Such a class belongs to a file that has lost
the title in a collision, or to a part of a file.
-/

namespace SchemaClasses

variable {options : RunOptions} {files : FileTree} {downloads : List (String × String)}
variable {depth : Nat} {run : Run} {after : Draft}

namespace Run.EndsAt

theorem id_of_get? (h : run.EndsAt options files downloads after) {id : ClassId}
    {c : ClassDescriptor}
    (hc : run.table.get? id = some c) : c.id = id := by
  obtain ⟨place, drafted, -, -, -, rfl⟩ := h.place_inv hc
  rfl

/-- What is found by a title is the first class that has it. -/
theorem findByTitle?_eq_some_iff (h : run.EndsAt options files downloads after) {title : String}
    {c : ClassDescriptor} :
    run.table.findByTitle? title = some c ↔ c ∈ run.table ∧ c.title = some title ∧
      ∀ other ∈ run.table, other.title = some title → c.id ≤ other.id := by
  rw [ClassTable.findByTitle?, List.find?_eq_some_iff_getElem]
  constructor
  · rintro ⟨htitle, i, hi, rfl, hbefore⟩
    refine ⟨List.getElem_mem hi, of_decide_eq_true htitle, fun other hother hsame => ?_⟩
    obtain ⟨j, hj, rfl⟩ := List.getElem_of_mem hother
    rw [h.id_of_get? (List.getElem?_eq_getElem hi), h.id_of_get? (List.getElem?_eq_getElem hj)]
    by_contra hlt
    simpa [hsame] using hbefore j (Nat.not_le.mp hlt)
  · rintro ⟨hc, htitle, hfirst⟩
    obtain ⟨i, hi, rfl⟩ := List.getElem_of_mem hc
    refine ⟨decide_eq_true htitle, i, hi, rfl, fun j hj => ?_⟩
    have hid := h.id_of_get? (List.getElem?_eq_getElem hi)
    have hid' := h.id_of_get? (List.getElem?_eq_getElem (hj.trans hi))
    have hne : run.table[j].title ≠ some title := by
      intro hsame
      have hle := hfirst _ (List.getElem_mem (hj.trans hi)) hsame
      rw [hid, hid'] at hle
      exact absurd hj (Nat.not_lt.mpr hle)
    simpa using hne

theorem title_of_held (h : run.EndsAt options files downloads after) {title : String}
    {document : Document} (held : after.catalog.byTitle? title = some document)
    {c : ClassDescriptor} (hc : c ∈ run.table) (hsource : c.source = document.key) :
    c.title = some title := by
  obtain ⟨known, htitle⟩ := h.accounted.held title document held
  obtain ⟨other, known', hkey, htitle'⟩ := h.document_inv hc
  obtain rfl := known.unique known' (hsource.symm.trans hkey.symm)
  exact htitle'.symm.trans htitle

theorem collision_of_title (h : run.EndsAt options files downloads after) {title : String}
    {document : Document} (held : after.catalog.byTitle? title = some document)
    {other : ClassDescriptor} (hother : other ∈ run.table) (htitle : other.title = some title)
    (hfile : after.catalog.HasFile other.source) (hne : other.source ≠ document.key) :
    ∃ entry ∈ after.catalog.collisions, entry.title = title ∧ entry.previous = other.source := by
  obtain ⟨found, known, hkey, hsame⟩ := h.document_inv hother
  rcases h.accounted.owned found title known (hfile.isFile known hkey) (hsame.trans htitle) with
    heq | ⟨entry, hentry, hof, hprevious⟩
  · obtain rfl := Option.some.inj (held.symm.trans heq)
    exact absurd hkey.symm hne
  · exact ⟨entry, hentry, hof, hprevious.trans hkey⟩

end Run.EndsAt

/-- If the file that a title means has a class, a lookup by the title finds a class of that title,
which is the class of the file exactly when no class of the title has a smaller id. All other
classes of the title are for files that have lost it in a collision, or for parts of files; without
these the lookup agrees with the catalog. -/
theorem RunOptions.findByTitle?_of_held
    (h : options.resolveAll depth (options.start files downloads) = some (.ok run, after))
    {title : String} {document : Document}
    (held : after.catalog.byTitle? title = some document)
    {c : ClassDescriptor} (hc : c ∈ run.table) (hsource : c.source = document.key) :
    (∃ found ∈ run.table, found.title = some title ∧ found.id ≤ c.id ∧
      run.table.findByTitle? title = some found ∧ run.table.find? title = some found) ∧
    (run.table.findByTitle? title = some c ↔
      ∀ other ∈ run.table, other.title = some title → c.id ≤ other.id) ∧
    (∀ other ∈ run.table, other.title = some title → other ≠ c →
      after.catalog.HasFile other.source →
      ∃ entry ∈ after.catalog.collisions, entry.title = title ∧ entry.previous = other.source) ∧
    ((∀ entry ∈ after.catalog.collisions, entry.title ≠ title) →
      (∀ other ∈ run.table, other.title = some title → after.catalog.HasFile other.source) →
      run.table.findByTitle? title = some c) := by
  have ends := RunOptions.resolveAll_endsAt h
  have htitle := ends.title_of_held held hc hsource
  have hlost : ∀ other ∈ run.table, other.title = some title → other ≠ c →
      after.catalog.HasFile other.source →
      ∃ entry ∈ after.catalog.collisions, entry.title = title ∧
        entry.previous = other.source := by
    intro other hother hsame hne hfile
    refine ends.collision_of_title held hother hsame hfile fun heq => hne ?_
    exact List.inj_on_of_nodup_map ends.sources_nodup hother hc (heq.trans hsource.symm)
  have hiff : run.table.findByTitle? title = some c ↔
      ∀ other ∈ run.table, other.title = some title → c.id ≤ other.id := by
    rw [ends.findByTitle?_eq_some_iff]
    exact ⟨fun hfound => hfound.2.2, fun hfirst => ⟨hc, htitle, hfirst⟩⟩
  refine ⟨?_, hiff, hlost, fun free whole => hiff.mpr fun other hother hsame => ?_⟩
  · cases hfind : run.table.findByTitle? title with
    | none => exact absurd htitle (by simpa using List.find?_eq_none.mp hfind c hc)
    | some found =>
      obtain ⟨hmem, hsame, hfirst⟩ := ends.findByTitle?_eq_some_iff.mp hfind
      refine ⟨found, hmem, hsame, hfirst c hc htitle, rfl, ?_⟩
      rw [ClassTable.find?, hfind, Option.some_or]
  · by_cases heq : other = c
    · exact heq ▸ le_rfl
    · obtain ⟨entry, hentry, hof, -⟩ := hlost other hother hsame heq (whole other hother hsame)
      exact absurd hof (free entry hentry)

/-- The key of the file that a title means at the end of a run, with the sources of the classes that
have the title and of the one that is found by it. -/
def RunOptions.titleLookup? (options : RunOptions) (files : FileTree) (depth : Nat)
    (title : String) : Option (Option String × List String × Option String) :=
  (options.resolveAll depth (options.start files)).bind fun result =>
    result.1.toOption.map fun run =>
      ((result.2.catalog.byTitle? title).map (·.key),
        (run.table.filter (·.title = some title)).map (·.source),
        (run.table.findByTitle? title).map (·.source))

theorem RunOptions.titleLookup?_inv {title : String} {held found : Option String}
    {sources : List String}
    (h : options.titleLookup? files depth title = some (held, sources, found)) :
    ∃ run after, options.resolveAll depth (options.start files) = some (.ok run, after) ∧
      (after.catalog.byTitle? title).map (·.key) = held ∧
      (run.table.filter (·.title = some title)).map (·.source) = sources ∧
      (run.table.findByTitle? title).map (·.source) = found := by
  obtain ⟨⟨result, after⟩, hrun, h⟩ := Option.bind_eq_some_iff.mp h
  cases result with
  | error => cases h
  | ok run =>
    obtain ⟨hheld, hrest⟩ := Prod.mk.inj (Option.some.inj h)
    obtain ⟨hsources, hfound⟩ := Prod.mk.inj hrest
    exact ⟨run, after, hrun, hheld, hsources, hfound⟩

/-- A root that refers to two schemas. -/
def FileTree.referringToTwo (first second : Json) : FileTree :=
  .ofSchemas [
    ("c", .obj [("type", .str "object"),
      ("properties", .obj [("a", .referringTo "a"), ("b", .referringTo "b")])]),
    ("a", first), ("b", second)]

/-- A title that no other schema has finds the class of its file. -/
theorem RunOptions.findByTitle?_of_held_alone :
    let options := RunOptions.onSchemas "c"
    let files := FileTree.referringToTwo (.titledObject "S") (.titledObject "T")
    ∃ run after c, options.resolveAll 8 (options.start files) = some (.ok run, after) ∧
      (after.catalog.byTitle? "T").map (·.key) = some "/s/b" ∧ c.source = "/s/b" ∧
      run.table.findByTitle? "T" = some c := by
  intro options files
  have hlookup : options.titleLookup? files 8 "T" = some (some "/s/b", ["/s/b"], some "/s/b") := by
    decide +kernel
  obtain ⟨run, after, hrun, hheld, hsources, -⟩ := titleLookup?_inv hlookup
  obtain ⟨document, hdocument, hkey⟩ := Option.map_eq_some_iff.mp hheld
  obtain ⟨c, hfilter, hsource⟩ := List.map_eq_singleton_iff.mp hsources
  obtain ⟨hc, -⟩ := List.mem_filter.mp (hfilter ▸ List.mem_singleton_self c)
  obtain ⟨-, hiff, -⟩ := findByTitle?_of_held hrun hdocument hc (hsource.trans hkey.symm)
  refine ⟨run, after, c, hrun, hheld, hsource, hiff.mpr fun other hother hsame => ?_⟩
  have hmem : other ∈ run.table.filter (·.title = some "T") :=
    List.mem_filter.mpr ⟨hother, decide_eq_true hsame⟩
  rw [hfilter, List.mem_singleton] at hmem
  exact hmem ▸ le_rfl

/-- Of two files with one title that a class refers to, the second has the title, and the lookup
finds the class of the first. -/
theorem RunOptions.findByTitle?_shared :
    let options := RunOptions.onSchemas "c"
    let files := FileTree.referringToTwo (.titledObject "T") (.titledObject "T")
    ∃ run after document c found,
      options.resolveAll 8 (options.start files) = some (.ok run, after) ∧
      after.catalog.byTitle? "T" = some document ∧ c ∈ run.table ∧ c.source = document.key ∧
      run.table.findByTitle? "T" = some found ∧ found.source ≠ document.key := by
  intro options files
  have hlookup : options.titleLookup? files 8 "T" =
      some (some "/s/b", ["/s/a", "/s/b"], some "/s/a") := by
    decide +kernel
  obtain ⟨run, after, hrun, hheld, hsources, hfound⟩ := titleLookup?_inv hlookup
  obtain ⟨document, hdocument, hkey⟩ := Option.map_eq_some_iff.mp hheld
  obtain ⟨found, hfind, hsource⟩ := Option.map_eq_some_iff.mp hfound
  obtain ⟨c, hc, hcsource⟩ := List.mem_map.mp
    (hsources ▸ List.mem_cons_of_mem _ List.mem_cons_self :
      "/s/b" ∈ (run.table.filter (·.title = some "T")).map (·.source))
  refine ⟨run, after, document, c, found, hrun, hdocument, (List.mem_filter.mp hc).1,
    hcsource.trans hkey.symm, hfind, ?_⟩
  rw [hsource, hkey]
  decide

end SchemaClasses
