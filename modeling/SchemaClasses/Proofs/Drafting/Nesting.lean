import Mathlib.Data.Finset.Card
import SchemaClasses.Proofs.Drafting.Complete
import SchemaClasses.Proofs.Drafting.Halting
import SchemaClasses.Proofs.Drafting.Tasks

/-!
# Nested inline references

While the type of a property is found, documents without a class are resolved inline, inside each
other. The draft holds their keys, the innermost first, and a document is only resolved inline when
its key is not among them. So the keys are distinct, and no more documents are inside each other
than references have led to. Finding the type comes to an end.
-/

namespace SchemaClasses

/-- The document without a class that the reference of a moment leads to. -/
def Moment.referred? : Moment → Option Document
  | loading reference draft =>
    (draft.catalog.load reference).1.filter fun document => !isClassLike document.body
  | following _ => none

namespace Drafting

/-- The keys of the documents without a class that references have led to. -/
def referredKeys (moments : List Moment) : List String :=
  moments.filterMap fun moment => moment.referred?.map (·.key)

theorem referredKeys_append (first second : List Moment) :
    referredKeys (first ++ second) = referredKeys first ++ referredKeys second :=
  List.filterMap_append

theorem mem_referredKeys_load {reference : String} {draft between : Draft} {document : Document}
    (hload : load reference draft = some (some document, between))
    (hclass : isClassLike document.body = false) :
    document.key ∈ referredKeys [.loading reference draft] := by
  have hfound : (draft.catalog.load reference).1 = some document :=
    (Prod.mk.inj (Option.some.inj hload)).1
  simp [referredKeys, Moment.referred?, hfound, hclass]

/-- The schemas that have come to be followed after some others are distinct, and their keys are
among the given ones. -/
def Inlined (keys before following : List String) : Prop :=
  ∃ inlined, following = inlined ++ before ∧ inlined.Nodup ∧
    ∀ key ∈ inlined, key ∈ keys ∧ key ∉ before

theorem Inlined.none (keys before : List String) : Inlined keys before before :=
  ⟨[], rfl, List.nodup_nil, by simp⟩

theorem Inlined.inside {keys before following : List String} {key : String} (hkey : key ∈ keys)
    (hnew : key ∉ before) (h : Inlined keys (key :: before) following) :
    Inlined keys before following := by
  obtain ⟨inlined, rfl, hnodup, hkeys⟩ := h
  refine ⟨inlined ++ [key], by simp, ?_, fun other hother => ?_⟩
  · refine hnodup.append (List.nodup_singleton key) fun other hother hsame => ?_
    obtain rfl := List.mem_singleton.mp hsame
    exact (hkeys other hother).2 List.mem_cons_self
  · rcases List.mem_append.mp hother with hother | hother
    · obtain ⟨hmem, hout⟩ := hkeys other hother
      exact ⟨hmem, fun h => hout (List.mem_cons_of_mem _ h)⟩
    · obtain rfl := List.mem_singleton.mp hother
      exact ⟨hkey, hnew⟩

/-- As long as references lead to the given keys only, the schemas that an action comes to follow
are distinct and among these. -/
def Nests {α : Type} (keys : List String) (action : DraftingT Watched α) (draft : Draft) : Prop :=
  referredKeys (action draft).moments ⊆ keys → ∀ moment ∈ (action draft).moments,
    Inlined keys draft.following moment.draft.following

namespace Nests

variable {α β : Type} {keys : List String} {draft : Draft}

theorem of_sees {watched : DraftingT Watched α} {plain : Drafting α}
    (h : Sees watched plain draft fun moment => moment.draft.following = draft.following) :
    Nests keys watched draft := fun _ moment hmoment => by
  rw [h.moments moment hmoment]
  exact .none keys _

theorem of_moments {action : DraftingT Watched α} {other : DraftingT Watched β}
    (hsame : (action draft).moments = (other draft).moments) (h : Nests keys other draft) :
    Nests keys action draft := by
  unfold Nests
  rw [hsame]
  exact h

theorem of_silent {action : DraftingT Watched α} (h : (action draft).moments = []) :
    Nests keys action draft := fun _ moment hmoment => by
  rw [h] at hmoment
  cases hmoment

theorem bind_silent {first : DraftingT Watched α} {next : α → DraftingT Watched β}
    (h : Nests keys first draft) (k : ∀ result between, (next result between).moments = []) :
    Nests keys (first >>= next) draft :=
  of_moments (moments_bind_silent k) h

theorem get_bind {next : Draft → DraftingT Watched β} (h : Nests keys (next draft) draft) :
    Nests keys (get >>= next) draft :=
  of_moments rfl h

theorem map (f : α → β) {action : DraftingT Watched α} (h : Nests keys action draft) :
    Nests keys (f <$> action) draft := by
  have hbind : Nests keys (action >>= fun result => Pure.pure (f result)) draft :=
    bind_silent h fun _ _ => rfl
  exact hbind

theorem load_bind {reference : String} {next : Option Document → DraftingT Watched β}
    (k : ∀ {found between}, load reference draft = some (found, between) →
      (∀ document, found = some document → isClassLike document.body = false →
        document.key ∈ keys) → Nests keys (next found) between) :
    Nests keys (load reference >>= next) draft := by
  obtain ⟨⟨found, between⟩, hload⟩ : ∃ result, load reference draft = some result := ⟨_, rfl⟩
  have hmoments : ((load reference >>= next) draft).moments =
      [.loading reference draft] ++ (next found between).moments := by
    obtain ⟨rfl, rfl⟩ := Prod.mk.inj (Option.some.inj hload)
    rfl
  intro hkeys
  rw [hmoments, referredKeys_append, List.append_subset] at hkeys
  have hnext := k hload (fun document hfound hclass => by
    subst hfound
    exact hkeys.1 (mem_referredKeys_load hload hclass)) hkeys.2
  rw [(load_grows hload).following] at hnext
  rw [hmoments, List.singleton_append, List.forall_mem_cons]
  exact ⟨.none keys _, hnext⟩

theorem inContext {document : Document} {action : DraftingT Watched α}
    (h : Nests keys action { draft with catalog := draft.catalog.enter document }) :
    Nests keys (inContext document action) draft := by
  have hinner : Nests keys (action >>= fun result => do
      onCatalog fun catalog => ((), catalog.leave)
      return result) { draft with catalog := draft.catalog.enter document } :=
    bind_silent h fun _ _ => rfl
  exact hinner

theorem whileFollowing {key : String} {action : DraftingT Watched α} (hkey : key ∈ keys)
    (hnew : key ∉ draft.following)
    (h : Nests keys action { draft with following := key :: draft.following }) :
    Nests keys (whileFollowing key action) draft := by
  have hmoments : (Drafting.whileFollowing key action draft).moments =
      .following { draft with following := key :: draft.following } ::
        (action { draft with following := key :: draft.following }).moments :=
    congrArg (Moment.following _ :: ·) (moments_bind_silent fun _ _ => rfl)
  intro hkeys
  rw [hmoments] at hkeys ⊢
  rw [List.forall_mem_cons]
  refine ⟨.inside hkey hnew (.none keys _), fun moment hmoment => ?_⟩
  exact .inside hkey hnew (h hkeys moment hmoment)

end Nests

/-- While links are followed, the schemas that are being followed stay the same. -/
theorem Task.Seen.following {passed : List String} {document : Document} {draft : Draft}
    {moment : Moment} (h : Seen (.unalias passed document, draft) moment) :
    moment.draft.following = draft.following := by
  obtain ⟨last, hstarts, hshows⟩ := h
  obtain ⟨passed, document, hlast, hsame⟩ : ∃ passed document,
      last.1 = .unalias passed document ∧ last.2.following = draft.following := by
    clear hshows
    induction hstarts with
    | refl => exact ⟨passed, document, rfl, rfl⟩
    | tail _ hstart ih =>
      obtain ⟨_, _, hbefore, hsame⟩ := ih
      cases hstart with
      | link _ _ htarget =>
        exact ⟨_, _, rfl, (target_learns htarget).grows.following.trans hsame⟩
      | _ => cases hbefore
  cases hshows with
  | loads hloads => cases hloads with
    | link | wrapper => exact hsame
    | type | base => cases hlast
  | follows => cases hlast

section

variable {keys : List String} {draft : Draft} {depth : Nat} {owner : Owner} {path : String}
variable {fragment : Json} {usage : Usage} {resolve : Resolve Watched}

theorem enumerationType_nests :
    Nests keys (enumerationType owner path fragment usage) draft :=
  .of_sees enumerationType_sees

theorem inlineObjectType_nests {isOptional : Bool} :
    Nests keys (inlineObjectType depth owner path fragment isOptional) draft := by
  have hflat : Sees (inlineObjectType depth owner path fragment isOptional)
      (inlineObjectType depth owner path fragment isOptional) draft
      fun moment => moment.draft.following = draft.following := by
    unfold inlineObjectType
    refine .bind (.get_bind (.onCatalog _)) fun {document between} hdocument => .get_bind ?_
    have hsame := (insert_grows (inlineDocument_inv hdocument)).following
    have hintern := (intern_sees depth document between).mono fun _ hseen =>
      (Task.Seen.following hseen).trans hsame
    refine .bind hintern fun {id _} _ => ?_
    cases id with
    | none => exact .pure _
    | some target => exact .get_bind (.pure _)
  exact .of_sees hflat

theorem classType_nests {document : Document} {className : String} {isOptional : Bool} :
    Nests keys (classType depth document className isOptional) draft :=
  .of_sees (classType_sees.mono fun _ => Task.Seen.following)

variable (hresolve : ∀ {path fragment usage draft}, Nests keys (resolve path fragment usage) draft)
include hresolve

theorem arrayType_nests {items : Option Json} :
    Nests keys (arrayType resolve path items usage) draft := by
  unfold arrayType
  cases items with
  | none => exact .of_silent rfl
  | some items =>
    refine .bind_silent hresolve fun item _ => ?_
    cases item <;> rfl

theorem dictionaryType_nests {values : Json} :
    Nests keys (dictionaryType resolve path values) draft := by
  unfold dictionaryType
  split
  · exact .of_silent rfl
  · exact .bind_silent hresolve fun _ _ => rfl

theorem followedType_nests {reference : String} {document : Document} (hkey : document.key ∈ keys) :
    Nests keys (followedType resolve owner path reference document usage) draft := by
  unfold followedType
  refine .get_bind ?_
  split
  · exact .of_silent rfl
  · exact .bind_silent (.whileFollowing hkey ‹_› (.inContext hresolve)) fun _ _ => rfl

theorem referenceType_nests {reference : String} :
    Nests keys (referenceType depth resolve owner path reference usage) draft := by
  unfold referenceType
  refine .load_bind fun {found between} _ hkey => ?_
  cases found with
  | none => exact .of_silent rfl
  | some document =>
    dsimp only
    split
    · exact .of_silent rfl
    · refine .get_bind ?_
      split
      · exact .of_silent rfl
      · split
        · exact classType_nests
        · exact followedType_nests hresolve (hkey document rfl (Bool.eq_false_iff.mpr ‹_›))

omit hresolve

theorem fragmentType_nests (keys : List String) (owner : Owner) (depth : Nat) (path : String)
    (fragment : Json) (usage : Usage) (draft : Draft) :
    Nests keys (fragmentType owner depth path fragment usage) draft := by
  induction depth generalizing path fragment usage draft with
  | zero => exact .of_silent rfl
  | succ depth ih =>
    simp only [fragmentType]
    cases PropertyShape.of fragment <;> refine .bind_silent ?_ fun _ _ => rfl
    case empty | scalar | unsupported => exact .of_silent rfl
    case enumeration => exact .map _ enumerationType_nests
    case array => exact arrayType_nests (ih _ _ _ _)
    case inlineObject => exact .map _ inlineObjectType_nests
    case dictionary => exact .map _ (dictionaryType_nests (ih _ _ _ _))
    case reference => exact .map _ (referenceType_nests (ih _ _ _ _))
    case composite => exact ih _ _ _ _

end

/-- Finding the type of a property comes to an end in any draft, with one and the same result at
every depth from some depth on. A watched run ends like the run itself, and at whatever is seen of
it, those that are being resolved inline are distinct, as long as they were before, and no more of
them are inside each other than references have led to in the run. -/
theorem propertyType_terminates (owner : Owner) (name : String) (fragment : Json)
    (isRequired : Bool) (draft : Draft) :
    (∃ depth result after, after.following = draft.following ∧ ∀ more, depth ≤ more →
      propertyType more owner name fragment isRequired draft = some (result, after)) ∧
    ∀ depth,
      let run : Watched _ := propertyType depth owner name fragment isRequired draft
      run.outcome? = propertyType depth owner name fragment isRequired draft ∧
      ∀ moment ∈ run.moments,
        (draft.following.Nodup → moment.draft.following.Nodup) ∧
        ∃ inlined, moment.draft.following = inlined ++ draft.following ∧ inlined.Nodup ∧
          inlined ⊆ referredKeys run.moments ∧
          inlined.length ≤ (referredKeys run.moments).toFinset.card := by
  obtain ⟨depth, ⟨result, after⟩, hends⟩ := propertyType_halts owner name fragment isRequired draft
  have hrestored := (fragmentType_types (hends depth (Nat.le_refl _))).grows.following
  refine ⟨⟨depth, result, after, hrestored, hends⟩, fun depth => ?_⟩
  intro run
  refine ⟨(fragmentType_sees owner depth name fragment _ draft).ends, fun moment hmoment => ?_⟩
  obtain ⟨inlined, hfollowing, hnodup, hkeys⟩ := fragmentType_nests (referredKeys run.moments)
    owner depth name fragment _ draft (List.Subset.refl _) moment hmoment
  have hreferred : inlined ⊆ referredKeys run.moments := fun key hkey => (hkeys key hkey).1
  refine ⟨fun hbefore => ?_, inlined, hfollowing, hnodup, hreferred, ?_⟩
  · rw [hfollowing]
    exact hnodup.append hbefore fun key hkey => (hkeys key hkey).2
  · rw [← List.toFinset_card_of_nodup hnodup]
    exact Finset.card_le_card fun key hkey =>
      List.mem_toFinset.mpr (hreferred (List.mem_toFinset.mp hkey))

def FileTree.knot : FileTree := .ofSchemas
  [("b", .obj [("type", .str "array"), ("items", .referringTo "c")]),
    ("c", .obj [("allOf", .arr [.referringTo "b"])])]

/-- Inside the references, both documents are being resolved inline. The type ends where they come
back to the array. -/
theorem propertyType_terminates_knot :
    let draft := Draft.new (.new FileTree.knot ["/s"] []) .empty (.ofNamespace "N")
    let owner := Owner.mk ⟨"/s/a", "/s/a", .obj []⟩ "A"
    let run : Watched _ := propertyType 8 owner "p" (.referringTo "b") true draft
    ∃ moment ∈ run.moments,
      moment.draft.following = ["/s/c", "/s/b"] ∧ draft.following.Nodup ∧
      moment.draft.following.Nodup ∧ 2 ≤ (referredKeys run.moments).toFinset.card ∧
      referredKeys run.moments = ["/s/b", "/s/c", "/s/b"] ∧
      (∃ depth result after, after.following = [] ∧ ∀ more, depth ≤ more →
        propertyType more owner "p" (.referringTo "b") true draft = some (result, after)) ∧
      (propertyType 8 owner "p" (.referringTo "b") true draft : Option _).map
          (fun result => result.1.map fun type => type.facets.modelType) =
        some (some "std::vector<CesiumUtility::JsonValue>") := by
  intro draft owner run
  have hrun : run.moments.map (·.draft.following) =
      [[], ["/s/b"], ["/s/b"], ["/s/c", "/s/b"], ["/s/c", "/s/b"]] := by
    decide +kernel
  obtain ⟨moment, hmoment, hfollowing⟩ : ∃ moment ∈ run.moments,
      moment.draft.following = ["/s/c", "/s/b"] := by
    refine List.mem_map.mp ?_
    rw [hrun]
    simp
  obtain ⟨hends, hnested⟩ := propertyType_terminates owner "p" (.referringTo "b") true draft
  obtain ⟨hnodup, inlined, hinlined, -, -, hlength⟩ := (hnested 8).2 moment hmoment
  refine ⟨moment, hmoment, hfollowing, List.nodup_nil, hnodup List.nodup_nil, ?_,
    by decide +kernel, hends, by decide +kernel⟩
  have htwo : inlined = ["/s/c", "/s/b"] := by
    rw [← hfollowing]
    exact ((List.append_nil inlined).symm.trans hinlined.symm)
  rwa [htwo] at hlength

end Drafting

end SchemaClasses
