import SchemaClasses.Proofs.ClassTable.LocalTypes

/-!
# Legal names in a run

When the settings name no class, every class has its plain name, and the identifiers of constants
come from what the schemas list. All of them have legal characters only. A class has a legal name
unless that is empty, starts with a digit or is reserved, and one that is declared at a property has
a legal name if the class around it has. The identifier of a constant is never empty and never
starts with a digit, so it is legal unless it is reserved.
-/

namespace SchemaClasses

/-- The enumerations of a class: those declared in it, or the one that it is itself. -/
def ClassKind.enumerations : ClassKind → List Enumeration
  | .object own => own.localTypes
  | .enumeration e => [e]
  | .value type => type.localTypes
  | .unsupported => []

/-- An enumeration that has been read from a fragment. -/
def Enumeration.IsRead (e : Enumeration) : Prop :=
  ∃ name scope fragment default, ofFragment name scope fragment default = .ok e

namespace Drafting

variable {owner : Owner} {draft after : Draft}

theorem enumerationBody_isRead {listsItems : Bool} {e : Enumeration}
    (h : enumerationBody owner listsItems draft = some (.enumeration e, after)) : e.IsRead := by
  unfold enumerationBody at h
  rw [get_bind] at h
  obtain ⟨found, between, hread, hnext⟩ := bind_inv h
  obtain ⟨type, htype, rfl, rfl⟩ | ⟨fault, -, rfl, rfl⟩ := enumerationOf_inv hread
  · dsimp only at hnext
    split at hnext
    · cases (warn_pure_inv hnext).1
    · obtain ⟨heq, -⟩ := pure_inv hnext
      obtain rfl := DraftBody.enumeration.inj heq
      exact ⟨_, _, _, _, htype⟩
  · cases (pure_inv hnext).1

/-- The enumerations of a drafted class have been read. -/
theorem Bodies.isRead {body : DraftBody} (h : Bodies owner draft body after) :
    (∀ e, body = .enumeration e → e.IsRead) ∧
      ∀ type ∈ body.types, ∀ e ∈ type.localTypes, e.IsRead := by
  constructor
  · rintro e rfl
    cases h with
    | constants _ hbody => exact enumerationBody_isRead hbody
  · refine h.forall_types (P := fun _ type => ∀ e ∈ type.localTypes, e.IsRead) ?_ ?_
    · intro path fragment usage draft type after htype e he
      obtain ⟨fragment, default, hread⟩ := htype.declaresAt type rfl e he
      exact ⟨_, _, fragment, default, hread⟩
    · intro draft after type _ hread
      exact hread

end Drafting

/-- The enumerations of a class are those of its draft. -/
theorem Linking.mem_enumerations {l : Linking} {id : ClassId} {drafted : DraftClass}
    {e : Enumeration} (h : e ∈ (l.classOf id drafted).kind.enumerations) :
    drafted.body = .enumeration e ∨ ∃ type ∈ drafted.body.types, e ∈ type.localTypes := by
  rw [kind_classOf, kind] at h
  cases hbody : drafted.body with
  | object base declared members =>
    rw [hbody] at h
    obtain ⟨p, hp, he⟩ := List.mem_flatMap.mp h
    exact .inr ⟨p.type, List.mem_map_of_mem (List.mem_of_mem_filter hp), he⟩
  | enumeration own =>
    rw [hbody] at h
    exact .inl (by rw [List.mem_singleton.mp h])
  | value type =>
    rw [hbody] at h
    exact .inr ⟨type, List.mem_singleton_self type, h⟩
  | unsupported =>
    rw [hbody] at h
    cases h

namespace RunOptions

open Drafting

variable {options : RunOptions} {files : FileTree} {downloads : List (String × String)}
variable {depth : Nat} {run : Run} {after : Draft}

theorem isRead_of_mem
    (h : options.resolveAll depth (options.start files downloads) = some (.ok run, after))
    {c : ClassDescriptor} (hc : c ∈ run.table) {e : Enumeration} (he : e ∈ c.kind.enumerations) :
    e.IsRead := by
  obtain ⟨id, hid⟩ := List.mem_iff_getElem?.mp hc
  obtain ⟨place, drafted, -, -, ⟨start, last, ⟨hbody⟩, -⟩, rfl⟩ :=
    (resolveAll_endsAt h).class_inv hid
  obtain ⟨hwhole, hlocal⟩ := hbody.isRead
  rcases Linking.mem_enumerations he with hbody | ⟨type, htype, he⟩
  · exact hwhole e hbody
  · exact hlocal type htype e he

/-- Without names in the settings, every class has its plain name. -/
theorem typeName_eq_plain
    (h : options.resolveAll depth (options.start files downloads) = some (.ok run, after))
    (hoverride : ∀ title, options.settings.overrideName? title = none)
    (hclass : ∀ e ∈ options.settings.extensions, e.className = none)
    {c : ClassDescriptor} (hc : c ∈ run.table) :
    c.typeName = Naming.plain c.title c.source := by
  rcases typeName_cases h hc with hset | hplain
  · cases hset with
    | override _ hname =>
      rw [hoverride] at hname
      cases hname
    | extension he _ hname =>
      rw [hclass _ he] at hname
      cases hname
  · exact hplain

/-- When the settings name no class, the names of a run have legal characters only. A class has a
legal name unless its plain name is empty, starts with a digit or is reserved, and it has one when
it is declared at a property of a class that has one. A constant has a legal identifier unless the
text that it is named after is reserved, with underscores for the characters that are not legal. -/
theorem names_legal (h : options.resolveAll depth (options.start files downloads) =
    some (.ok run, after))
    (hoverride : ∀ title, options.settings.overrideName? title = none)
    (hclass : ∀ e ∈ options.settings.extensions, e.className = none)
    {c : ClassDescriptor} (hc : c ∈ run.table) :
    Naming.bare c.typeName = Naming.plain c.title c.source ∧
    Naming.IsWord (Naming.bare c.typeName) ∧
    (Naming.IsLegal (Naming.bare c.typeName) ↔
      Naming.needsMark (Naming.bare c.typeName).toList = false ∧
        Naming.bare c.typeName ∉ Naming.reservedWords) ∧
    (∀ parent path, c.title = some (Naming.inlineTitle parent path) → Naming.IsLegal parent →
      Naming.IsLegal (Naming.bare c.typeName)) ∧
    ∀ e ∈ c.kind.enumerations, ∀ v ∈ e.variants,
      Naming.IsWord v.identifier ∧ Naming.needsMark v.identifier.toList = false ∧
      (Naming.IsLegal v.identifier ↔
        String.ofList (Naming.wordChars v.text) ∉ Naming.reservedWords) := by
  have hname : Naming.bare c.typeName = Naming.plain c.title c.source := by
    rw [typeName_eq_plain h hoverride hclass hc, Naming.bare_plain]
  have hword : Naming.IsWord (Naming.bare c.typeName) := by
    rw [hname]
    exact Naming.isWord_plain _ _
  refine ⟨hname, hword, Naming.isLegal_iff hword, ?_, ?_⟩
  · intro parent path htitle hparent
    rw [hname, htitle]
    exact Naming.isLegal_inlineTitle hparent path _
  · intro e he v hv
    obtain ⟨_, _, _, _, hread⟩ := isRead_of_mem h hc he
    rw [Enumeration.identifier_eq hread hv]
    exact ⟨Naming.isWord_identifier _, Naming.needsMark_identifier _,
      Naming.isLegal_identifier_iff _⟩

def listing (title text : String) : FileTree :=
  .ofSchemas [("c", .obj [("title", .str title), ("type", .str "object"),
    ("properties", .obj [("mode", .obj [("type", .str "string"), ("enum", .arr [.str text])])])])]

/-- The class of such an object and its constant, when the table has been computed. -/
theorem exists_listing (title text name identifier : String)
    (h : (((onSchemas "c").resolveAll 8 ((onSchemas "c").start (listing title text))).bind
      fun result => result.1.toOption.map fun run => run.table.map fun c =>
        (c.typeName, c.kind.enumerations.map fun e =>
          e.variants.map fun v => (v.text, v.identifier))) =
      some [(name, [[(text, identifier)]])]) :
    ∃ run after c e v,
      (onSchemas "c").resolveAll 8 ((onSchemas "c").start (listing title text)) =
        some (.ok run, after) ∧
      c ∈ run.table ∧ c.typeName = name ∧ e ∈ c.kind.enumerations ∧ v ∈ e.variants ∧
      v.text = text ∧ v.identifier = identifier := by
  obtain ⟨run, after, hrun, htable⟩ := run_of_map h
  obtain ⟨c, htable, hclass⟩ := List.map_eq_singleton_iff.mp htable
  obtain ⟨hname, henums⟩ := Prod.mk.inj hclass
  obtain ⟨e, henums, hvariants⟩ := List.map_eq_singleton_iff.mp henums
  obtain ⟨v, hvariants, hv⟩ := List.map_eq_singleton_iff.mp hvariants
  obtain ⟨htext, hidentifier⟩ := Prod.mk.inj hv
  exact ⟨run, after, c, e, v, hrun, by simp [htable], hname, by simp [henums], by simp [hvariants],
    htext, hidentifier⟩

/-- A title and a constant with characters that are not legal have legal names. -/
theorem names_legal_listing :
    ∃ run after c e v,
      (onSchemas "c").resolveAll 8 ((onSchemas "c").start (listing "Wrap Mode" "2/3")) =
        some (.ok run, after) ∧
      c ∈ run.table ∧ e ∈ c.kind.enumerations ∧ v ∈ e.variants ∧
      (onSchemas "c").settings.extensions = [] ∧ c.typeName = "WrapMode" ∧ v.text = "2/3" ∧
      Naming.IsLegal (Naming.bare c.typeName) ∧ Naming.IsLegal v.identifier := by
  obtain ⟨run, after, c, e, v, hrun, hc, hname, he, hv, htext, -⟩ :=
    exists_listing "Wrap Mode" "2/3" "WrapMode" "_2_3" (by decide +kernel)
  obtain ⟨-, -, hlegal, -, hconstants⟩ := names_legal hrun (fun _ => rfl) nofun hc
  obtain ⟨-, -, hidentifier⟩ := hconstants e he v hv
  refine ⟨run, after, c, e, v, hrun, hc, he, hv, rfl, hname, htext, hlegal.mpr ?_,
    hidentifier.mpr ?_⟩
  · rw [hname]
    decide
  · rw [htext]
    decide

/-- A title that starts with a digit gives a class no legal name, and a constant that is a reserved
word has no legal identifier. -/
theorem names_illegal :
    ∃ run after c e v,
      (onSchemas "c").resolveAll 8 ((onSchemas "c").start (listing "3D Mode" "auto")) =
        some (.ok run, after) ∧
      (onSchemas "c").settings = .empty ∧ c ∈ run.table ∧ e ∈ c.kind.enumerations ∧
      v ∈ e.variants ∧ ¬Naming.IsLegal (Naming.bare c.typeName) ∧
      ¬Naming.IsLegal v.identifier := by
  obtain ⟨run, after, c, e, v, hrun, hc, hname, he, hv, -, hidentifier⟩ :=
    exists_listing "3D Mode" "auto" "3DMode" "auto" (by decide +kernel)
  have hdigit : Naming.needsMark (Naming.bare "3DMode").toList = true := by decide
  refine ⟨run, after, c, e, v, hrun, rfl, hc, he, hv, ?_, ?_⟩
  · intro hlegal
    rw [hname] at hlegal
    cases hdigit.symm.trans ((Naming.isLegal_iff hlegal.word).mp hlegal).1
  · intro hlegal
    rw [hidentifier] at hlegal
    exact hlegal.free (by decide)

end RunOptions

end SchemaClasses
