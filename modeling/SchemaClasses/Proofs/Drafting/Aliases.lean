import SchemaClasses.Proofs.Drafting.Citations
import SchemaClasses.Proofs.Drafting.Following

/-!
# Aliases are transparent

A document that is only a link has the class of the document at the end of its chain, in every
state, and no class when the chain comes back to itself or leads nowhere. So only documents without
links have places, and two documents have one class exactly when their chains end at one key,
whatever is done between the time when the one gets its class and the time when the other does.
-/

namespace SchemaClasses

namespace Draft

/-- What may be done to a draft: it grows, a place in it is filled, or the places stay the same. -/
inductive Changes (draft : Draft) : Draft → Prop
  | grows {after} : draft.Grows after → Changes draft after
  | aside {after} : after.places = draft.places → Changes draft after
  | fill (id : ClassId) (drafted : DraftClass) : Changes draft (draft.fill id drafted)

/-- A draft after some changes. -/
abbrev Evolves : Draft → Draft → Prop := Relation.ReflTransGen Changes

variable {draft after : Draft}

theorem Changes.keys (h : draft.Changes after) (distinct : draft.keys.Nodup) :
    after.keys.Nodup := by
  cases h with
  | grows hgrows => exact hgrows.keys distinct
  | aside hplaces => rwa [Draft.keys, hplaces]
  | fill id drafted => rwa [keys_fill]

theorem Changes.holds (h : draft.Changes after) {id : ClassId} {key : String}
    (holds : draft.Holds id key) : after.Holds id key := by
  cases h with
  | grows hgrows => exact hgrows.holds holds
  | aside hplaces => rwa [Holds, hplaces]
  | fill other drafted => exact (draft.fill_within other drafted).holds holds

theorem Evolves.keys (h : draft.Evolves after) (distinct : draft.keys.Nodup) :
    after.keys.Nodup := by
  induction h with
  | refl => exact distinct
  | tail _ hchange ih => exact hchange.keys ih

theorem Evolves.holds (h : draft.Evolves after) {id : ClassId} {key : String}
    (holds : draft.Holds id key) : after.Holds id key := by
  induction h with
  | refl => exact holds
  | tail _ hchange ih => exact hchange.holds ih

end Draft

namespace Drafting

variable {draft after between : Draft} {document own : Document} {depth : Nat}

theorem Step.evolves {policy : Policy} (h : Step policy draft after) : draft.Evolves after := by
  cases h with
  | find | enter | leave | name | nowhere | resolved => exact .single (.aside rfl)
  | intern _ hid => exact .single (.grows hid.grows)
  | @drafted id rest place drafted inner hpending hplace hclass =>
    have hpop : draft.Evolves { draft with
        pending := rest, catalog := draft.catalog.enter place.document } := .single (.aside rfl)
    have hleave : inner.Evolves { inner with catalog := inner.catalog.leave } :=
      .single (.aside rfl)
    exact ((hpop.tail (.grows hclass.grows)).trans hleave).tail (.fill id drafted)

theorem Steps.evolves {policy : Policy} (h : Steps policy draft after) : draft.Evolves after := by
  induction h with
  | refl => exact .refl
  | tail _ hstep ih => exact ih.trans hstep.evolves

theorem Task.Starts.evolves {task next : Task × Draft} (h : Task.Starts task next) :
    task.2.Evolves next.2 := by
  cases h with
  | items | values | inner | member | implied | onlyBase | value => exact .refl
  | link _ _ htarget => exact .single (.grows (target_learns htarget).grows)
  | inlineObject _ hdocument =>
    exact .single (.grows (insert_grows (inlineDocument_inv hdocument)))
  | reference _ hleads => exact .single (.grows (load_grows hleads.loads))
  | followed _ hleads => exact .head (.grows (load_grows hleads.loads)) (.single (.aside rfl))
  | baseReference _ hload => exact .single (.grows (load_grows hload))
  | baseWritten _ hinsert => exact .single (.grows (insert_grows hinsert))
  | rest _ htype => exact .single (.grows htype.grows)
  | firstBase => exact .single (.aside rfl)
  | properties _ hbase => exact .single (.grows hbase.grows)

/-! ### Interning and the end of the chain -/

theorem intern_of_unalias (h : unalias depth document draft = some (some own, between)) :
    intern depth document draft =
      some (some ((between.idOf? own.key).getD between.places.length),
        (between.idOf? own.key).elim (between.append own) fun _ => between) := by
  unfold intern
  change (unalias depth document draft).bind _ = _
  rw [h, Option.bind_some]
  dsimp only
  rw [get_bind]
  cases between.idOf? own.key <;> rfl

theorem intern_of_unalias_none (h : unalias depth document draft = some (none, between)) :
    intern depth document draft = some (none, between) := by
  unfold intern
  change (unalias depth document draft).bind _ = _
  rw [h]
  rfl

theorem StandsFor.self (hlink : own.link? = none) : StandsFor own draft own :=
  ⟨[], draft, .here, hlink, List.nodup_singleton _⟩

theorem StandsFor.gives (h : StandsFor document draft own) :
    Gives (unalias · document) draft (some own) := by
  obtain ⟨found, depth, after, hends⟩ := unalias_ends document draft
  have hown := unaliasFrom_unaliases (hends depth (Nat.le_refl depth))
  cases found with
  | none => exact absurd hown.breaks h.not_breaks
  | some other =>
    obtain rfl := h.unique hown.standsFor
    exact ⟨depth, after, hends⟩

theorem Breaks.gives (h : Breaks document draft) : Gives (unalias · document) draft none := by
  obtain ⟨found, depth, after, hends⟩ := unalias_ends document draft
  have hown := unaliasFrom_unaliases (hends depth (Nat.le_refl depth))
  cases found with
  | none => exact ⟨depth, after, hends⟩
  | some other => exact absurd h hown.standsFor.not_breaks

theorem StandsFor.intern_gives (h : StandsFor document draft own) :
    Gives (intern · document) draft
      (some ((draft.idOf? own.key).getD draft.places.length)) := by
  obtain ⟨depth, between, hends⟩ := h.gives
  obtain ⟨catalog, -, rfl⟩ := (unaliasFrom_unaliases (hends depth (Nat.le_refl depth))).learns
  exact ⟨depth, _, fun more hmore => (intern_of_unalias (hends more hmore) :)⟩

theorem intern_gives_none_iff : Gives (intern · document) draft none ↔ Breaks document draft := by
  constructor
  · rintro ⟨depth, after, hends⟩
    cases intern_interns (hends depth (Nat.le_refl depth)) with
    | lost hown => exact hown.breaks
  · intro h
    obtain ⟨depth, after, hends⟩ := h.gives
    exact ⟨depth, after, fun more hmore => intern_of_unalias_none (hends more hmore)⟩

/-- What is interned now and what is interned later have one class when their chains end at one
key. -/
theorem Interns.eq_iff {first last : Draft} {other : Document} {id id' : ClassId}
    (distinct : draft.keys.Nodup) (h : Interns document draft (some id) first)
    (hbetween : first.Evolves last) (k : Interns other last (some id') after) :
    ∃ own own', StandsFor document draft own ∧ StandsFor other last own' ∧
      (id = id' ↔ own.key = own'.key) := by
  obtain ⟨own, _, hown, -, hholds⟩ := h.holds
  obtain ⟨own', _, hown', -, hholds'⟩ := k.holds
  have hafter : after.Holds id own.key := k.grows.holds (hbetween.holds hholds)
  have hdistinct : after.keys.Nodup := k.grows.keys (hbetween.keys (h.grows.keys distinct))
  refine ⟨own, own', hown.standsFor, hown'.standsFor, ?_, ?_⟩
  · rintro rfl
    exact Option.some.inj (hafter.symm.trans hholds')
  · intro heq
    rw [← heq] at hholds'
    have hid := (Draft.idOf?_eq_some_iff hdistinct).mpr hafter
    have hid' := (Draft.idOf?_eq_some_iff hdistinct).mpr hholds'
    exact Option.some.inj (hid.symm.trans hid')

/-- Following the links of a document comes to an end in every state. When the chain ends at a
document without a link, both have the same class, and the document has none exactly when the chain
breaks. No class is drafted for a document with a link. Of two documents that get classes one after
the other, also in the middle of drafting others, the classes are the same exactly when the chains
end at one key. -/
theorem aliases_transparent :
    (∀ document draft,
      (∃ found, Gives (unalias · document) draft found) ∧
      (∀ own, StandsFor document draft own →
        ∃ id, Gives (intern · document) draft (some id) ∧ Gives (intern · own) draft (some id)) ∧
      (Gives (intern · document) draft none ↔ Breaks document draft)) ∧
    (∀ catalog settings naming draft, Steps .any (.new catalog settings naming) draft →
      draft.pending = [] → ∀ id c, draft.linking.table.get? id = some c →
        ∃ place drafted, draft.places[id]? = some place ∧ place.document.link? = none ∧
          Drafted place.document draft drafted ∧ c = draft.linking.classOf id drafted) ∧
    (∀ catalog settings naming draft, Draft.Evolves (.new catalog settings naming) draft →
      ∀ document depth id interned, intern depth document draft = some (some id, interned) →
        ∀ later, interned.Evolves later →
          ∀ other depth' id' after, intern depth' other later = some (some id', after) →
            ∃ own own', StandsFor document draft own ∧ StandsFor other later own' ∧
              (id = id' ↔ own.key = own'.key)) ∧
    (∀ draft after, Steps .any draft after → draft.Evolves after) ∧
    ∀ task next, Task.Starts task next → task.2.Evolves next.2 := by
  refine ⟨fun document draft => ⟨unalias_ends document draft, ?_, intern_gives_none_iff⟩, ?_, ?_,
    fun draft after h => Steps.evolves h, fun task next h => h.evolves⟩
  · intro own h
    obtain ⟨keys, after, hkeys, hlink, hnodup⟩ := h
    exact ⟨_, StandsFor.intern_gives ⟨keys, after, hkeys, hlink, hnodup⟩,
      (StandsFor.self hlink).intern_gives⟩
  · intro catalog settings naming draft hsteps hpending id c hc
    have orderly := Steps.orderly hsteps (Draft.new_orderly catalog settings naming)
    obtain ⟨place, drafted, hplace, -, hdrafted, hclass⟩ := orderly.class_inv hpending hc
    exact ⟨place, drafted, hplace, orderly.unlinked place (List.mem_of_getElem? hplace), hdrafted,
      hclass⟩
  · intro catalog settings naming draft hevolves document depth id interned hintern later hlater
      other depth' id' after hother
    have distinct : draft.keys.Nodup :=
      hevolves.keys (Draft.new_orderly catalog settings naming).distinct
    exact (intern_interns hintern).eq_iff distinct hlater (intern_interns hother)

/-- A schema that only wraps a reference gets a class, and the schema referred to has that class. -/
theorem aliases_transparent_wrapper :
    let body : Json := .obj [("allOf", .arr [.referringTo "d"])]
    let wrapper : Document := ⟨"/s/w", "/s/w", body⟩
    let wrapped : Document := ⟨"/s/d", "/s/d", .withProperty "a" .number⟩
    let files := FileTree.ofSchemas [("w", body), ("d", .withProperty "a" .number)]
    let start := Draft.new (.new files ["/s"] []) .empty (.ofNamespace "N")
    ∃ interned after, intern 8 wrapper start = some (some 0, interned) ∧
      intern 8 wrapped interned = some (some 0, after) ∧
      ∃ own own', StandsFor wrapper start own ∧ StandsFor wrapped interned own' ∧
        own.key = own'.key := by
  intro body wrapper wrapped files start
  have hrun : ((intern 8 wrapper start : Option _).bind fun first =>
      (intern 8 wrapped first.2 : Option _).map fun second => (first.1, second.1)) =
        some (some 0, some 0) := by
    decide +kernel
  obtain ⟨⟨id, interned⟩, hfirst, hrun⟩ := Option.bind_eq_some_iff.mp hrun
  obtain ⟨⟨id', after⟩, hsecond, heq⟩ := Option.map_eq_some_iff.mp hrun
  obtain ⟨rfl, rfl⟩ := Prod.mk.inj heq
  obtain ⟨-, -, hsame, -⟩ := aliases_transparent
  obtain ⟨own, own', hown, hown', hiff⟩ := hsame _ _ _ start .refl wrapper 8 0 interned hfirst
    interned .refl wrapped 8 0 after hsecond
  exact ⟨interned, after, hfirst, hsecond, own, own', hown, hown', hiff.mp rfl⟩

end Drafting

end SchemaClasses
