import Mathlib.Data.List.TakeWhile
import SchemaClasses.Proofs.ClassTable.Ancestors
import SchemaClasses.Proofs.Drafting.Complete
import SchemaClasses.Proofs.Enumeration.Entries
import SchemaClasses.Proofs.Naming

/-!
# Names of local enumerations

An enumeration that is listed at a property, or anywhere inside its containers, is declared in the
class of the property and named after the property alone: after the part before the first dot, with
its first character in upper case. Nothing looks whether another property has that name already. So
the enumerations of two properties clash exactly when the names made from the two properties are the
same, and then so do their paths and the readers named after them.
-/

namespace SchemaClasses

namespace Naming

def enumerationName (property : String) : String := capitalized (baseProperty property)

/-- A name that starts with a lower-case letter and has no dots. -/
def IsCamel (name : String) : Prop :=
  ∃ c rest, name.toList = c :: rest ∧ c.isLower = true ∧ '.' ∉ c :: rest

end Naming

namespace Text

variable {sep : Char → Bool}

theorem cutFirst_fst (cs : List Char) :
    ((cutFirst sep cs).map Prod.fst).getD cs = cs.takeWhile fun c => !sep c := by
  induction cs with
  | nil => rfl
  | cons c cs ih =>
    cases hc : sep c with
    | true => simp [cutFirst, hc]
    | false =>
      rw [List.takeWhile_cons_of_pos (by simp [hc]), ← ih]
      cases hcut : cutFirst sep cs <;> simp [cutFirst, hc, hcut]

theorem uppercase_of_isLower {c : Char} (h : c.isLower = true) :
    ∃ upper, uppercase c = [upper] ∧ upper.toNat + 32 = c.toNat := by
  have hletters : ∀ n < 123, 97 ≤ n → (uppercase (Char.ofNat n)).map Char.toNat = [n - 32] := by
    decide +kernel
  obtain ⟨hfirst, hlast⟩ := Naming.isLower_iff.mp h
  have hcode := hletters c.toNat (by omega) hfirst
  rw [Char.ofNat_toNat] at hcode
  obtain ⟨upper, hupper, hnat⟩ := List.map_eq_singleton_iff.mp hcode
  exact ⟨upper, hupper, by omega⟩

/-- Texts that start with a lower-case letter are told apart when that is in upper case. -/
theorem capitalize_inj {c d : Char} {cs ds : List Char} (hc : c.isLower = true)
    (hd : d.isLower = true) :
    capitalize (c :: cs) = capitalize (d :: ds) ↔ c :: cs = d :: ds := by
  obtain ⟨upper, hupper, hnat⟩ := uppercase_of_isLower hc
  obtain ⟨other, hother, hcode⟩ := uppercase_of_isLower hd
  constructor
  · intro h
    simp only [capitalize, hupper, hother, List.singleton_append, List.cons.injEq] at h
    obtain ⟨rfl, rfl⟩ := h
    have heq : c = d := Char.toNat_inj.mp (hnat.symm.trans hcode)
    rw [heq]
  · intro h
    rw [h]

end Text

namespace Naming

theorem toList_baseProperty (path : String) :
    (baseProperty path).toList = path.toList.takeWhile fun c => !(c == '.') := by
  rw [← Text.cutFirst_fst, baseProperty]
  cases Text.cutFirst (· == '.') path.toList <;> simp

theorem baseProperty_append (path rest : String) :
    baseProperty (path ++ ("." ++ rest)) = baseProperty path := by
  rw [← String.toList_inj, toList_baseProperty, toList_baseProperty, String.toList_append,
    String.toList_append, List.takeWhile_append]
  split
  · rename_i hall
    have hself := (List.takeWhile_prefix _).eq_of_length hall
    rw [hself]
    simp
  · rfl

theorem baseProperty_eq_self {name : String} (h : '.' ∉ name.toList) :
    baseProperty name = name := by
  rw [← String.toList_inj, toList_baseProperty, List.takeWhile_eq_self_iff]
  intro c hc
  have hdot : c ≠ '.' := fun heq => h (heq ▸ hc)
  simpa using hdot

theorem enumerationName_append (path rest : String) :
    enumerationName (path ++ ("." ++ rest)) = enumerationName path := by
  rw [enumerationName, baseProperty_append, enumerationName]

theorem enumerationName_inj {first second : String} (hfirst : IsCamel first)
    (hsecond : IsCamel second) :
    enumerationName first = enumerationName second ↔ first = second := by
  obtain ⟨c, cs, hfirst, hc, hdot⟩ := hfirst
  obtain ⟨d, ds, hsecond, hd, hdot'⟩ := hsecond
  rw [enumerationName, enumerationName, baseProperty_eq_self (hfirst ▸ hdot),
    baseProperty_eq_self (hsecond ▸ hdot'), capitalized, capitalized, String.ofList_inj, hfirst,
    hsecond, Text.capitalize_inj hc hd, ← hfirst, ← hsecond, String.toList_inj]

end Naming

theorem Enumeration.ofFragment_place {name scope : String} {fragment : Json}
    {default : Option Json} {e : Enumeration}
    (h : ofFragment name scope fragment default = .ok e) : e.name = name ∧ e.scope = scope := by
  unfold ofFragment at h
  obtain ⟨agreed, -, h⟩ := bind_eq_ok_iff.mp h
  cases agreed with
  | none => cases h
  | some type =>
    obtain ⟨found, -, h⟩ := bind_eq_ok_iff.mp h
    dsimp only at h
    split at h
    · cases h
    · cases h
      exact ⟨rfl, rfl⟩

namespace Descriptor

@[simp] theorem localTypes_documented (type : Descriptor) (outer : Documentation) :
    (type.documented outer).localTypes = type.localTypes := by
  rw [localTypes, core_documented, localTypes]

/-- All enumerations that a type declares have been read under a name and in a scope. -/
def DeclaresAt (name scope : String) (type : Descriptor) : Prop :=
  ∀ e ∈ type.localTypes, ∃ fragment default,
    Enumeration.ofFragment name scope fragment default = .ok e

end Descriptor

namespace Drafting

variable {owner : Owner} {path : String} {fragment : Json} {usage : Usage}
variable {draft after : Draft}

theorem enumerationType_declaresAt {type : Descriptor}
    (h : enumerationType owner path fragment usage draft = some (type, after)) :
    type.DeclaresAt (Naming.enumerationName path) (draft.naming.qualified owner.typeName) := by
  unfold enumerationType at h
  rw [get_bind] at h
  obtain ⟨found, between, hread, hnext⟩ := bind_inv h
  obtain ⟨e, he, rfl, rfl⟩ | ⟨fault, -, rfl, rfl⟩ := enumerationOf_inv hread
  · obtain ⟨rfl, rfl⟩ := pure_inv hnext
    intro other hother
    obtain rfl := List.mem_singleton.mp hother
    exact ⟨_, _, he⟩
  · obtain ⟨rfl, rfl⟩ := pure_inv hnext
    exact fun _ hother => nomatch hother

/-- What is found at a path declares enumerations named after the property of the path, in the class
of the property. -/
theorem Types.declaresAt {found : Option Descriptor}
    (h : Types owner path fragment usage draft found after) :
    ∀ type, found = some type →
      type.DeclaresAt (Naming.enumerationName path) (draft.naming.qualified owner.typeName) := by
  induction h with
  | empty => nofun
  | enumeration _ htype =>
    rintro _ ⟨⟩ e he
    rw [Descriptor.localTypes_documented] at he
    exact enumerationType_declaresAt htype e he
  | anyItems | anyValues | missing | index | json | circular | unsupported =>
    rintro _ ⟨⟩ e he
    cases he
  | @scalar _ _ kind =>
    rintro _ ⟨⟩ e he
    cases kind <;> cases he
  | @array _ _ _ _ _ item _ _ _ ih =>
    intro type htype e he
    obtain ⟨item, rfl, rfl⟩ := Option.map_eq_some_iff.mp htype
    rw [Descriptor.localTypes_documented] at he
    rw [← Naming.enumerationName_append _ "items"]
    exact ih item rfl e he
  | @inlineObject _ _ _ _ _ _ id _ =>
    rintro _ ⟨⟩ e he
    rw [Descriptor.localTypes_documented] at he
    cases id <;> cases he
  | @dictionary _ _ _ _ _ value _ _ _ _ ih =>
    rintro _ ⟨⟩ e he
    rw [Descriptor.localTypes_documented] at he
    rw [← Naming.enumerationName_append _ "additionalProperties"]
    cases value with
    | none => cases he
    | some value => exact ih value rfl e he
  | @reference _ _ _ _ _ _ _ id =>
    rintro _ ⟨⟩ e he
    rw [Descriptor.localTypes_documented] at he
    cases id with
    | none => cases he
    | some target =>
      rw [Option.map_some, Option.getD_some, Descriptor.localTypes, Descriptor.core_reference] at he
      cases he
  | @followed _ _ _ _ _ _ _ type _ _ hleads _ _ _ ih =>
    rintro _ ⟨⟩ e he
    rw [Descriptor.localTypes_documented] at he
    cases type with
    | none => cases he
    | some type =>
      have hnaming := (load_grows hleads.loads).naming
      rw [← hnaming]
      exact ih type rfl e he
  | composite _ _ ih =>
    intro type htype e he
    obtain ⟨inner, rfl, rfl⟩ := Option.map_eq_some_iff.mp htype
    rw [Descriptor.localTypes_documented] at he
    exact ih inner rfl e he

theorem Drafted.declaresAt {document : Document} {drafted : DraftClass} {base : Option ClassId}
    {declared : List String} {members : List Property} (h : Drafted document draft drafted)
    (hobject : drafted.body = .object base declared members) :
    ∀ p ∈ members, p.type.DeclaresAt (Naming.enumerationName p.name)
      (draft.naming.qualified drafted.typeName) := by
  obtain ⟨start, last, ⟨hbody⟩, hwithin⟩ := h
  obtain ⟨-, -, between, -, hmembers⟩ := hbody.object_inv hobject
  rw [hwithin.naming]
  refine hmembers.forall_types (P := fun draft path type =>
    type.DeclaresAt (Naming.enumerationName path) (draft.naming.qualified _)) ?_ ?_
  · intro path fragment usage draft type after htype
    rw [htype.grows.naming]
    exact htype.declaresAt type rfl
  · intro draft after path type hgrows hdeclares
    rwa [hgrows.naming]

/-- The enumerations that the properties of a class declare are named after the properties, in the
scope of the class. -/
theorem Called.declaresAt {catalog : Catalog} {settings : Settings} {naming : Naming}
    {ids : List ClassId} {depth : Nat} {table : ClassTable}
    (h : Called (.new catalog settings naming) ids draft)
    (hfinish : finish depth draft = some (table, after)) {id : ClassId} {c : ClassDescriptor}
    {object : ObjectClass} (hc : table.get? id = some c) (hobject : c.object? = some object) :
    ∀ p ∈ object.properties,
      p.type.DeclaresAt (Naming.enumerationName p.name) c.qualifiedName := by
  obtain ⟨orderly, hpending, -, rfl, -⟩ := h.finished hfinish
  obtain ⟨place, drafted, -, -, hdrafted, rfl⟩ := orderly.class_inv hpending hc
  obtain ⟨base, declared, members, hbody, rfl⟩ := Linking.object?_classOf.mp hobject
  intro p hp
  exact hdrafted.declaresAt hbody p (List.mem_of_mem_filter hp)

end Drafting

namespace Enumeration

variable {e f : Enumeration}

theorem path_eq_path_iff (h : e.scope = f.scope) : e.path = f.path ↔ e.name = f.name := by
  rw [path, path, h, String.append_right_inj]

theorem handlerName_eq_iff {reader other : LiteralReader} (he : e.reader? = some reader)
    (hf : f.reader? = some other) : reader.handlerName = other.handlerName ↔ e.name = f.name := by
  have hname {e : Enumeration} {reader : LiteralReader} (h : e.reader? = some reader) :
      reader.handlerName = e.name ++ "JsonHandler" := by
    unfold reader? at h
    split at h
    · cases h
    · obtain rfl := Option.some.inj h
      rfl
  rw [hname he, hname hf, String.append_left_inj]

end Enumeration

namespace Drafting

variable {draft after : Draft}

/-- The enumerations declared in a class are named after their properties, in order. Those of two
properties have one name, one path and one name of their readers exactly when the names made from
the two properties are the same. When the properties start with a lower-case letter and have no
dots, they are the same only if the properties are. -/
theorem localTypes_apart {catalog : Catalog} {settings : Settings} {naming : Naming}
    {ids : List ClassId} {depth : Nat} {table : ClassTable}
    (h : Called (.new catalog settings naming) ids draft)
    (hfinish : finish depth draft = some (table, after)) {id : ClassId} {c : ClassDescriptor}
    {object : ObjectClass} (hc : table.get? id = some c) (hobject : c.object? = some object) :
    object.localTypes.map (·.name) = object.properties.flatMap (fun p =>
      p.type.localTypes.map fun _ => Naming.enumerationName p.name) ∧
    ∀ p ∈ object.properties, ∀ q ∈ object.properties,
      ∀ e ∈ p.type.localTypes, ∀ f ∈ q.type.localTypes,
        (e.name = f.name ↔
          Naming.enumerationName p.name = Naming.enumerationName q.name) ∧
        (e.path = f.path ↔ e.name = f.name) ∧
        (∀ reader other, e.reader? = some reader → f.reader? = some other →
          (reader.handlerName = other.handlerName ↔ e.name = f.name)) ∧
        (Naming.IsCamel p.name → Naming.IsCamel q.name → (e.name = f.name ↔ p.name = q.name)) := by
  have hdeclares := h.declaresAt hfinish hc hobject
  constructor
  · rw [ObjectClass.localTypes, List.map_flatMap]
    refine List.flatMap_congr fun p hp => ?_
    refine List.map_congr_left fun e he => ?_
    obtain ⟨_, _, hread⟩ := hdeclares p hp e he
    exact (Enumeration.ofFragment_place hread).1
  · intro p hp q hq e he f hf
    obtain ⟨_, _, hread⟩ := hdeclares p hp e he
    obtain ⟨_, _, hread'⟩ := hdeclares q hq f hf
    obtain ⟨hname, hscope⟩ := Enumeration.ofFragment_place hread
    obtain ⟨hname', hscope'⟩ := Enumeration.ofFragment_place hread'
    refine ⟨?_, ?_, ?_, ?_⟩
    · rw [hname, hname']
    · exact Enumeration.path_eq_path_iff (hscope.trans hscope'.symm)
    · intro reader other hreader hother
      exact Enumeration.handlerName_eq_iff hreader hother
    · intro hcamel hcamel'
      rw [hname, hname', Naming.enumerationName_inj hcamel hcamel']

def twoLists (first second : String) : List (String × Json) :=
  let list : Json := .obj [("type", .str "string"), ("enum", .arr [.str "A"])]
  [("c", .obj [("type", .str "object"), ("properties", .obj [(first, list), (second, list)])])]

/-- The properties of such a class with the names of what they declare, when the table has been
computed. -/
theorem exists_localTypes (first second name other : String)
    (h : ((resolve 8 "c" (.onSchemas (twoLists first second)) : Option _).bind fun resolved =>
      (finish 8 resolved.2).map fun finished => (finished.1.get? 0).bind fun c =>
        c.object?.map fun object => object.properties.map fun p =>
          (p.name, p.type.localTypes.map (·.name))) =
      some (some [(first, [name]), (second, [other])])) :
    ∃ ids draft table after c object p q e f,
      Called (.onSchemas (twoLists first second)) ids draft ∧
      finish 8 draft = some (table, after) ∧ table.get? 0 = some c ∧ c.object? = some object ∧
      p ∈ object.properties ∧ q ∈ object.properties ∧ p.name = first ∧ q.name = second ∧
      e ∈ p.type.localTypes ∧ f ∈ q.type.localTypes ∧ e.name = name ∧ f.name = other := by
  obtain ⟨ids, draft, table, after, hcalled, hfinish, htable⟩ := exists_finish _ _ _ h
  obtain ⟨c, hc, hclass⟩ := Option.bind_eq_some_iff.mp htable
  obtain ⟨object, hobject, hproperties⟩ := Option.map_eq_some_iff.mp hclass
  have hdeclared {entry : String × List String}
      (hentry : entry ∈ [(first, [name]), (second, [other])]) :
      ∃ p ∈ object.properties, p.name = entry.1 ∧ p.type.localTypes.map (·.name) = entry.2 := by
    rw [← hproperties] at hentry
    obtain ⟨p, hp, rfl⟩ := List.mem_map.mp hentry
    exact ⟨p, hp, rfl, rfl⟩
  obtain ⟨p, hp, hfirst, hlist⟩ := hdeclared List.mem_cons_self
  obtain ⟨q, hq, hsecond, hlist'⟩ := hdeclared (List.mem_cons_of_mem _ List.mem_cons_self)
  obtain ⟨e, he, hname⟩ := List.map_eq_singleton_iff.mp hlist
  obtain ⟨f, hf, hother⟩ := List.map_eq_singleton_iff.mp hlist'
  exact ⟨ids, draft, table, after, c, object, p, q, e, f, hcalled, hfinish, hc, hobject, hp, hq,
    hfirst, hsecond, by simp [he], by simp [hf], hname, hother⟩

/-- Two properties in camel case declare enumerations of two names. -/
theorem localTypes_apart_camel :
    ∃ ids draft table after c object p q e f,
      Called (.onSchemas (twoLists "mode" "wrapMode")) ids draft ∧
      finish 8 draft = some (table, after) ∧ table.get? 0 = some c ∧ c.object? = some object ∧
      p ∈ object.properties ∧ q ∈ object.properties ∧
      e ∈ p.type.localTypes ∧ f ∈ q.type.localTypes ∧ Naming.IsCamel p.name ∧
      Naming.IsCamel q.name ∧ e.name ≠ f.name ∧ e.path ≠ f.path := by
  obtain ⟨ids, draft, table, after, c, object, p, q, e, f, hcalled, hfinish, hc, hobject, hp, hq,
    hfirst, hsecond, he, hf, -, -⟩ :=
    exists_localTypes "mode" "wrapMode" "Mode" "WrapMode" (by decide +kernel)
  have hcamel : Naming.IsCamel p.name := by
    rw [hfirst]
    exact ⟨'m', "ode".toList, by decide, by decide, by decide⟩
  have hcamel' : Naming.IsCamel q.name := by
    rw [hsecond]
    exact ⟨'w', "rapMode".toList, by decide, by decide, by decide⟩
  obtain ⟨-, hpath, -, hnames⟩ :=
    (localTypes_apart hcalled hfinish hc hobject).2 p hp q hq e he f hf
  have hname : e.name ≠ f.name := by
    rw [ne_eq, hnames hcamel hcamel', hfirst, hsecond]
    decide
  exact ⟨ids, draft, table, after, c, object, p, q, e, f, hcalled, hfinish, hc, hobject, hp, hq, he,
    hf, hcamel, hcamel', hname, mt hpath.mp hname⟩

/-- Two properties that differ in the case of their first letters declare enumerations of one
name. -/
theorem localTypes_alike :
    ∃ ids draft table after c object p q e f,
      Called (.onSchemas (twoLists "mode" "Mode")) ids draft ∧
      finish 8 draft = some (table, after) ∧ table.get? 0 = some c ∧ c.object? = some object ∧
      p ∈ object.properties ∧ q ∈ object.properties ∧ p.name ≠ q.name ∧
      e ∈ p.type.localTypes ∧ f ∈ q.type.localTypes ∧ e.name = f.name := by
  obtain ⟨ids, draft, table, after, c, object, p, q, e, f, hcalled, hfinish, hc, hobject, hp, hq,
    hfirst, hsecond, he, hf, hname, hother⟩ :=
    exists_localTypes "mode" "Mode" "Mode" "Mode" (by decide +kernel)
  refine ⟨ids, draft, table, after, c, object, p, q, e, f, hcalled, hfinish, hc, hobject, hp, hq,
    ?_, he, hf, hname.trans hother.symm⟩
  rw [hfirst, hsecond]
  decide

end Drafting

end SchemaClasses
