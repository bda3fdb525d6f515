import SchemaClasses.Proofs.Drafting.Named
import SchemaClasses.Proofs.Runs

/-!
# Type names

A class has a type name that the settings give it, by its title or as the class of an extension, or
else the plain name of its title, or of its location if it has no title. Plain names have nothing
but letters, digits and underscores in them. Names that are set are kept as they are, and may be
those of other classes.
-/

namespace SchemaClasses

namespace Text

theorem cutLast_eq_none {s : Char} {sep cs : List Char} (h : s ∉ cs) :
    cutLast (s :: sep) cs = none := by
  induction cs with
  | nil => rfl
  | cons c rest ih =>
    obtain ⟨hc, hrest⟩ := not_or.mp (List.mem_cons.not.mp h)
    rw [cutLast, ih hrest]
    simp [hc]

end Text

namespace Naming

theorem bare_eq_self {name : String} (h : ':' ∉ name.toList) : bare name = name := by
  rw [bare, split, Text.cutLast_eq_none h]

/-- The type name of a class with a given title, if any, and location, when no name is set. -/
def plain (title : Option String) (location : String) : String :=
  match title with
  | some title => ofTitle .empty title
  | none => ofLocation location

theorem ofTitle_empty (title : String) : ofTitle .empty title =
    String.ofList (title.toList.filter fun c => isWordChar c || c = '_') := rfl

theorem mem_plain {title : Option String} {location : String} {c : Char}
    (h : c ∈ (plain title location).toList) : isWordChar c = true ∨ c = '_' := by
  cases title with
  | some title =>
    rw [plain, ofTitle_empty, String.toList_ofList] at h
    simpa using (List.mem_filter.mp h).2
  | none =>
    rw [plain, ofLocation, String.toList_ofList] at h
    exact .inl (List.mem_filter.mp h).2

theorem not_mem_plain (title : Option String) (location : String) :
    ':' ∉ (plain title location).toList ∧ '/' ∉ (plain title location).toList :=
  ⟨fun h => absurd (mem_plain h) (by decide), fun h => absurd (mem_plain h) (by decide)⟩

theorem bare_plain (title : Option String) (location : String) :
    bare (plain title location) = plain title location :=
  bare_eq_self (not_mem_plain title location).1

end Naming

/-- The settings give a class its type name: by its title, or as the class of an extension. -/
inductive Settings.Sets (settings : Settings) (title extensionName : Option String)
    (typeName : String) : Prop
  | override {own} : title = some own → settings.overrideName? own = some typeName →
      Sets settings title extensionName typeName
  | extension {e} : e ∈ settings.extensions → extensionName = some e.extensionName →
      e.className = some typeName → Sets settings title extensionName typeName

namespace Draft

/-- The names that are set for the schemas of extensions are those of the settings. -/
structure SetBy (draft : Draft) (given : Settings) : Prop where
  settings : draft.settings = given
  extensionNames : ∀ entry ∈ draft.extensionNames, ∃ e ∈ given.extensions,
    entry.2 = ⟨e.className, e.extensionName⟩

variable {draft after : Draft} {settings : Settings}

theorem SetBy.grows (h : draft.SetBy settings) (grows : draft.Grows after) :
    after.SetBy settings where
  settings := grows.settings.trans h.settings
  extensionNames := by
    rw [grows.extensionNames]
    exact h.extensionNames

/-- A document goes by a name that is set for it, or by its plain name. -/
theorem SetBy.displayName (h : draft.SetBy settings) (document : Document) :
    settings.Sets document.title?
      ((Ordered.get? draft.extensionNames document.key).map (·.extensionName))
      (draft.displayName document) ∨
    draft.displayName document = Naming.plain document.title? document.key := by
  unfold Draft.displayName
  split
  · rename_i name hname
    obtain ⟨names, hnames, hclass⟩ := Option.bind_eq_some_iff.mp hname
    obtain ⟨e, he, rfl⟩ := h.extensionNames _ (Ordered.mem_of_get? hnames)
    refine .inl (.extension he ?_ hclass)
    rw [hnames, Option.map_some]
  · cases htitle : document.title? with
    | none => exact .inr rfl
    | some title =>
      dsimp only
      rw [h.settings, Naming.ofTitle]
      cases hname : settings.overrideName? title with
      | none => exact .inr rfl
      | some name => exact .inl (.override rfl hname)

/-- Every class that is drafted has a name that is set for it, or its plain name. -/
structure TypeNamed (draft : Draft) (settings : Settings) : Prop where
  setBy : draft.SetBy settings
  typeName : ∀ place ∈ draft.places, ∀ drafted, place.drafted = some drafted →
    settings.Sets drafted.title drafted.extensionName drafted.typeName ∨
    drafted.typeName = Naming.plain drafted.title drafted.source

theorem TypeNamed.grows (h : draft.TypeNamed settings) (grows : draft.Grows after) :
    after.TypeNamed settings where
  setBy := h.setBy.grows grows
  typeName place hplace drafted hdrafted := by
    rcases grows.mem_places place hplace with hbefore | hnone
    · exact h.typeName place hbefore drafted hdrafted
    · simp [hnone] at hdrafted

end Draft

namespace Drafting

variable {draft after : Draft} {settings : Settings}

theorem Classes.typeName {document : Document} {drafted : DraftClass}
    (h : Classes document draft drafted after) (setBy : draft.SetBy settings) :
    settings.Sets drafted.title drafted.extensionName drafted.typeName ∨
      drafted.typeName = Naming.plain drafted.title drafted.source := by
  obtain ⟨hbody⟩ := h
  dsimp only
  rw [hbody.grows.extensionNames]
  exact setBy.displayName document

def Policy.setting (settings : Settings) : Policy where
  strangers := False
  renames _ _ names := ∃ e ∈ settings.extensions, names = ⟨e.className, e.extensionName⟩

theorem Step.typeNamed (h : Step (.setting settings) draft after)
    (named : draft.TypeNamed settings) : after.TypeNamed settings := by
  cases h with
  | find | enter | leave | nowhere | resolved =>
    exact ⟨⟨named.setBy.settings, named.setBy.extensionNames⟩, named.typeName⟩
  | intern _ hid => exact named.grows hid.grows
  | @name document names _ hset =>
    refine ⟨⟨named.setBy.settings, fun entry hentry => ?_⟩, named.typeName⟩
    rcases Ordered.mem_of_mem_put hentry with hbefore | rfl
    · exact named.setBy.extensionNames entry hbefore
    · exact hset
  | @drafted id rest place drafted inner hpending hplace hclass =>
    have hin : inner.places[id]? = some place := hclass.grows.getElem? hplace
    have hstart : Draft.SetBy
        { draft with pending := rest, catalog := draft.catalog.enter place.document } settings :=
      ⟨named.setBy.settings, named.setBy.extensionNames⟩
    have hinner : inner.TypeNamed settings := by
      refine Draft.TypeNamed.grows ?_ hclass.grows
      exact ⟨hstart, named.typeName⟩
    refine ⟨⟨hinner.setBy.settings, hinner.setBy.extensionNames⟩, ?_⟩
    intro other hother found hfound
    obtain hother | rfl := Draft.mem_fill hin hother
    · exact hinner.typeName other hother found hfound
    · obtain rfl := Option.some.inj hfound
      exact hclass.typeName hstart

theorem Steps.typeNamed (h : Steps (.setting settings) draft after)
    (named : draft.TypeNamed settings) : after.TypeNamed settings := by
  induction h with
  | refl => exact named
  | tail _ step ih => exact step.typeNamed ih

end Drafting

open Drafting

variable {options : RunOptions} {files : FileTree} {downloads : List (String × String)}
variable {depth : Nat} {run : Run} {after : Draft}

theorem RunOptions.typeName_cases
    (h : options.resolveAll depth (options.start files downloads) = some (.ok run, after))
    {c : ClassDescriptor} (hc : c ∈ run.table) :
    options.settings.Sets c.title c.extensionName c.typeName ∨
      c.typeName = Naming.plain c.title c.source := by
  have allows : (Policy.setting options.settings).AllowsAll depth ⟨[], .empty⟩
      options.settings.extensions (options.start files downloads) := by
    intro before e later between middle hsplit _ document loaded _
    exact ⟨e, by rw [hsplit]; simp, rfl⟩
  have hsteps := (RunOptions.resolveAll_steps _ allows h).1.steps
  have hstart : (options.start files downloads).TypeNamed options.settings :=
    ⟨⟨rfl, fun _ hentry => absurd hentry List.not_mem_nil⟩,
      fun _ hplace => absurd hplace List.not_mem_nil⟩
  have named := Steps.typeNamed hsteps hstart
  have ends := RunOptions.resolveAll_endsAt h
  obtain ⟨id, hid⟩ := List.mem_iff_getElem?.mp hc
  obtain ⟨place, drafted, hplace, hdrafted, -, rfl⟩ := ends.place_inv hid
  exact named.typeName place (List.mem_of_getElem? hplace) drafted hdrafted

end SchemaClasses
