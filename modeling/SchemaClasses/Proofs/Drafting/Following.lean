import Mathlib.Data.Finset.Card
import SchemaClasses.Proofs.Catalog.Bounds
import SchemaClasses.Proofs.Drafting.Growth
import SchemaClasses.Proofs.Shape

/-!
# Following links to the end

The chain of links that starts at a document alternates between documents that are loaded and
entries that are written in place, whose keys only grow. It comes to an end nevertheless: what is
loaded has one of finitely many keys, and between two such documents the chain either goes along
documents that are known, whose keys have a greatest length, or down into one schema. Where it ends
does not depend on the bound on its depth.
-/

namespace SchemaClasses.Drafting

/-- Following links leads from a document past those with the given keys to another document. -/
inductive Follows : Document → Draft → List String → Document → Draft → Prop
  | here {document draft} : Follows document draft [] document draft
  | link {document link draft next between keys last after} : document.link? = some link →
      target document link draft = some (some next, between) →
      Follows next between keys last after →
      Follows document draft (document.key :: keys) last after

/-- The chain of a document ends at one without a link, and no key comes twice on the way. -/
def StandsFor (document : Document) (draft : Draft) (own : Document) : Prop :=
  ∃ keys after, Follows document draft keys own after ∧ own.link? = none ∧
    (keys ++ [own.key]).Nodup

/-- The chain of a document comes back to a key, or to a link that does not load. -/
def Breaks (document : Document) (draft : Draft) : Prop :=
  ∃ keys last during, Follows document draft keys last during ∧
    (last.key ∈ keys ∨ ∃ link after, last.link? = some link ∧
      target last link during = some (none, after))

/-- An action that ends at every depth from some depth on, with one and the same result. -/
def Gives {α : Type} (action : Nat → Drafting α) (draft : Draft) (result : α) : Prop :=
  ∃ depth after, ∀ more, depth ≤ more → action more draft = some (result, after)

/-! ### The end of a chain -/

variable {draft after between : Draft} {document next own : Document} {link : Link}
variable {sources texts keys seen : List String}

namespace Follows

variable {last : Document} {during : Draft} {rest : List String}

theorem key_mem (h : Follows document draft keys last during) :
    document.key ∈ keys ++ [last.key] := by
  cases h <;> simp

/-- A chain to a document without a link goes on from every other one that is on the way. -/
theorem split (h : Follows document draft keys last during)
    (k : Follows document draft rest own after) (hown : own.link? = none) :
    ∃ further, rest = keys ++ further ∧ Follows last during further own after := by
  induction h generalizing rest with
  | here => exact ⟨rest, rfl, k⟩
  | link hlink htarget _ ih =>
    cases k with
    | here =>
      rw [hown] at hlink
      cases hlink
    | link hlink' htarget' k =>
      obtain rfl := Option.some.inj (hlink.symm.trans hlink')
      have hsame := Option.some.inj (htarget.symm.trans htarget')
      obtain ⟨rfl, rfl⟩ : _ = _ ∧ _ = _ := ⟨Option.some.inj (Prod.mk.inj hsame).1,
        (Prod.mk.inj hsame).2⟩
      obtain ⟨further, rfl, hfurther⟩ := ih k
      exact ⟨further, rfl, hfurther⟩

theorem eq_of_link? (h : Follows document draft keys last during)
    (hlink : document.link? = none) : last = document ∧ keys = [] := by
  cases h with
  | here => exact ⟨rfl, rfl⟩
  | link hsome => simp [hlink] at hsome

end Follows

theorem StandsFor.unique {other : Document} (h : StandsFor document draft own)
    (k : StandsFor document draft other) : own = other := by
  obtain ⟨keys, after, hown, hlink, -⟩ := h
  obtain ⟨rest, last, hother, hlink', -⟩ := k
  obtain ⟨further, -, hfurther⟩ := hown.split hother hlink'
  exact (hfurther.eq_of_link? hlink).1.symm

theorem StandsFor.not_breaks (h : StandsFor document draft own) : ¬Breaks document draft := by
  obtain ⟨rest, after, hown, hlink, hnodup⟩ := h
  rintro ⟨keys, last, during, hlast, hbreak⟩
  obtain ⟨further, rfl, hfurther⟩ := hlast.split hown hlink
  rcases hbreak with hmem | ⟨link, between, hsome, htarget⟩
  · rw [List.append_assoc, List.nodup_append] at hnodup
    exact hnodup.2.2 last.key hmem last.key hfurther.key_mem rfl
  · cases hfurther with
    | here => simp [hlink] at hsome
    | link hsome' htarget' =>
      obtain rfl := Option.some.inj (hsome.symm.trans hsome')
      rw [htarget] at htarget'
      cases htarget'

/-- Where the derivation of an end leads. -/
theorem Unaliases.follows {found : Option Document}
    (h : Unaliases seen document draft found after) :
    match found with
    | some own => ∃ keys, Follows document draft keys own after ∧ own.link? = none ∧
        (keys ++ [own.key]).Nodup ∧ (keys ++ [own.key]).Disjoint seen
    | none => ∃ keys last during, Follows document draft keys last during ∧
        (last.key ∈ keys ++ seen ∨ ∃ link, last.link? = some link ∧
          target last link during = some (none, after)) := by
  induction h with
  | circle hseen => exact ⟨[], _, _, .here, .inl hseen⟩
  | itself hseen hlink => exact ⟨[], .here, hlink, by simp, by simpa using hseen⟩
  | lost hseen hlink htarget => exact ⟨[], _, _, .here, .inr ⟨_, hlink, htarget⟩⟩
  | @next seen document link next found draft between after hseen hlink htarget _ ih =>
    cases found with
    | some own =>
      obtain ⟨keys, hkeys, hown, hnodup, hdisjoint⟩ := ih
      rw [List.disjoint_cons_right] at hdisjoint
      refine ⟨_, .link hlink htarget hkeys, hown, ?_, ?_⟩
      · exact List.nodup_cons.mpr ⟨hdisjoint.1, hnodup⟩
      · exact List.disjoint_cons_left.mpr ⟨hseen, hdisjoint.2⟩
    | none =>
      obtain ⟨keys, last, during, hkeys, hbreak⟩ := ih
      refine ⟨_, last, during, .link hlink htarget hkeys, hbreak.imp_left fun hmem => ?_⟩
      simpa [or_left_comm] using hmem

theorem Unaliases.standsFor (h : Unaliases [] document draft (some own) after) :
    StandsFor document draft own := by
  obtain ⟨keys, hkeys, hown, hnodup, -⟩ := h.follows
  exact ⟨keys, after, hkeys, hown, hnodup⟩

theorem Unaliases.breaks (h : Unaliases [] document draft none after) : Breaks document draft := by
  obtain ⟨keys, last, during, hkeys, hbreak⟩ := h.follows
  refine ⟨keys, last, during, hkeys, ?_⟩
  rcases hbreak with hmem | ⟨link, hlink, htarget⟩
  · exact .inl (by simpa using hmem)
  · exact .inr ⟨link, after, hlink, htarget⟩

/-! ### Coming to the end -/

/-- How far following links can still go: the keys that loading can lead to, with one more step to
them from elsewhere, then the room for longer keys among those that are known, then the schema. -/
noncomputable def reach (keys seen : List String) (document : Document) (draft : Draft) :
    Nat × Nat × Nat :=
  (2 * (keys.toFinset \ seen.toFinset).card + (if document.key ∈ keys then 0 else 1),
    draft.catalog.longestKey - document.key.length, sizeOf document.body)

theorem card_sdiff_cons_lt {key : String} (hkey : key ∈ keys) (hseen : key ∉ seen) :
    (keys.toFinset \ (key :: seen).toFinset).card < (keys.toFinset \ seen.toFinset).card := by
  refine Finset.card_lt_card (Finset.ssubset_iff_of_subset ?_ |>.mpr ⟨key, ?_, ?_⟩)
  · exact Finset.sdiff_subset_sdiff (Finset.Subset.refl _) (by simp)
  · simp [hkey, hseen]
  · simp

theorem card_sdiff_cons_le (key : String) :
    (keys.toFinset \ (key :: seen).toFinset).card ≤ (keys.toFinset \ seen.toFinset).card :=
  Finset.card_le_card (Finset.sdiff_subset_sdiff (Finset.Subset.refl _) (by simp))

theorem target_ends (document : Document) (link : Link) (draft : Draft) :
    ∃ found after, target document link draft = some (found, after) := by
  cases link with
  | reference reference => exact ⟨_, _, rfl⟩
  | entry body => exact ⟨_, _, rfl⟩

/-- What a link leads to is within the bounds of the document that has it. -/
theorem target_bounded {found : Option Document} (bounded : draft.catalog.Bounded sources texts)
    (made : document.MadeOf sources texts) (hlink : document.link? = some link)
    (h : target document link draft = some (found, after)) :
    after.catalog.Bounded sources texts := by
  cases link with
  | reference reference =>
    obtain ⟨inner, hload, rfl⟩ := inContext_inv h
    obtain ⟨-, rfl⟩ := load_inv hload
    have hentered : (draft.catalog.enter document).Bounded sources texts :=
      bounded.of_same ⟨rfl, rfl⟩ rfl
    exact (hentered.load reference).of_same ⟨rfl, rfl⟩ rfl
  | entry body =>
    obtain ⟨known, between, hinsert, h⟩ := bind_inv h
    obtain ⟨-, rfl⟩ := pure_inv h
    obtain ⟨-, rfl⟩ := insert_inv hinsert
    have hbody := occurs_of_onlyBase? (Document.link?_entry_inv hlink)
    exact bounded.insert ⟨made.source, List.Subset.trans hbody.texts_subset made.texts⟩

/-- A reference leads to a key that loading can lead to. -/
theorem target_key (made : document.MadeOf sources texts) {reference : String}
    (hlink : document.link? = some (.reference reference))
    (h : target document (.reference reference) draft = some (some next, after)) :
    next.key ∈ draft.catalog.keysWithin sources texts := by
  obtain ⟨inner, hload, rfl⟩ := inContext_inv h
  obtain ⟨hfound, -⟩ := load_inv hload
  have htop : ∀ top ∈ (draft.catalog.enter document).contextTop?, top = document.source :=
    fun top hcontext => (Option.some.inj hcontext).symm
  have hkey := Catalog.load_key htop hfound.symm
  refine List.mem_flatMap.mpr ⟨document.source, made.source, ?_⟩
  refine List.mem_flatMap.mpr ⟨reference, made.texts ?_, hkey⟩
  obtain ⟨inner, hbase, heq⟩ | ⟨target, href, heq⟩ := Document.link?_cases hlink
  · have href := Json.mem_texts_of_string? (Link.reference_inv heq.symm)
    exact (occurs_of_onlyBase? hbase).texts_subset href
  · obtain rfl := Link.reference.inj heq
    exact Json.mem_texts_of_string? href

/-- The document of an entry is one that is known, or it becomes known. -/
theorem target_entry {body : Json}
    (h : target document (.entry body) draft = some (some next, after)) :
    next.key = document.key ++ "#/allOf/0" ∧
      (draft.catalog.Knows next ∧ after = draft ∨ next = document.firstEntry body ∧
        after = { draft with catalog := draft.catalog.add next }) := by
  obtain ⟨known, between, hinsert, h⟩ := bind_inv h
  obtain ⟨heq, rfl⟩ := pure_inv h
  obtain rfl := Option.some.inj heq
  obtain ⟨hnext, rfl⟩ := insert_inv hinsert
  have hkey := draft.catalog.insert_key (document.firstEntry body)
  rw [← hnext] at hkey
  refine ⟨hkey, ?_⟩
  unfold Catalog.insert at hnext ⊢
  split at hnext
  · rename_i found hfound
    obtain rfl := hnext
    exact .inl ⟨Catalog.knows_of_document? hfound, by simp⟩
  · rename_i new
    obtain rfl := hnext
    exact .inr ⟨rfl, by simp⟩

/-- An entry of a document leads to a longer key, among those that are known or further down. -/
theorem entry_down {body : Json} (hlink : document.link? = some (.entry body))
    (h : target document (.entry body) draft = some (some next, after)) :
    after.catalog.longestKey - next.key.length < draft.catalog.longestKey - document.key.length ∨
      after.catalog.longestKey - next.key.length = draft.catalog.longestKey - document.key.length ∧
        sizeOf next.body < sizeOf document.body := by
  obtain ⟨hkey, hcases⟩ := target_entry h
  have hlength : next.key.length = document.key.length + 9 := by
    rw [hkey, String.length_append]
    rfl
  rcases hcases with ⟨known, rfl⟩ | ⟨rfl, rfl⟩
  · have hle := known.length_le
    omega
  · have hsize := sizeOf_onlyBase?_lt (Document.link?_entry_inv hlink)
    have hbody : sizeOf (document.firstEntry body).body = sizeOf body := rfl
    dsimp only
    rw [Catalog.longestKey_add]
    omega

/-- Along every link the chain has less far to go. -/
theorem reach_target (made : document.MadeOf sources texts) (hseen : document.key ∉ seen)
    (hlink : document.link? = some link)
    (h : target document link draft = some (some next, after))
    (hkeys : draft.catalog.keysWithin sources texts = keys) :
    Prod.Lex (· < ·) (Prod.Lex (· < ·) (· < ·))
      (reach keys (document.key :: seen) next after) (reach keys seen document draft) := by
  rw [Prod.lex_def, Prod.lex_def]
  have hle : (keys.toFinset \ (document.key :: seen).toFinset).card ≤
      (keys.toFinset \ seen.toFinset).card := card_sdiff_cons_le document.key
  unfold reach
  dsimp only
  by_cases hkey : document.key ∈ keys
  · -- The key of the document is used up, and the next one costs at most a half of that.
    have hlt := card_sdiff_cons_lt hkey hseen
    rw [if_pos hkey]
    left
    split <;> omega
  · rw [if_neg hkey]
    by_cases hnext : next.key ∈ keys
    · rw [if_pos hnext]
      left
      omega
    · rw [if_neg hnext]
      cases link with
      | reference reference => exact absurd (hkeys ▸ target_key made hlink h) hnext
      | entry body =>
        have hdown := entry_down hlink h
        omega

theorem unaliasFrom_link {depth : Nat} {found : Option Document} (hseen : document.key ∉ seen)
    (hlink : document.link? = some link)
    (htarget : target document link draft = some (found, after)) :
    unaliasFrom (depth + 1) seen document draft =
      found.elim (some (none, after)) (unaliasFrom depth (document.key :: seen) · after) := by
  rw [unaliasFrom, if_neg hseen]
  simp only [hlink]
  change (target document link draft).bind _ = _
  rw [htarget]
  cases found <;> rfl

/-- Following the links of any document comes to an end. -/
theorem unaliasFrom_ends (seen : List String) (document : Document) (draft : Draft)
    (bounded : draft.catalog.Bounded sources texts) (made : document.MadeOf sources texts)
    (hkeys : draft.catalog.keysWithin sources texts = keys) :
    ∃ found, Gives (unaliasFrom · seen document) draft found := by
  have deeper (depth : Nat) (found : Option Document) (after : Draft)
      (h : ∀ more, depth ≤ more →
        unaliasFrom (more + 1) seen document draft = some (found, after)) :
      Gives (unaliasFrom · seen document) draft found := by
    refine ⟨depth + 1, after, fun more hmore => ?_⟩
    obtain ⟨more, rfl⟩ := Nat.exists_eq_add_of_le' (Nat.le_trans (Nat.le_add_left 1 depth) hmore)
    exact h more (Nat.le_of_succ_le_succ hmore)
  by_cases hseen : document.key ∈ seen
  · refine ⟨none, deeper 0 none
      { draft with catalog := draft.catalog.warn (.aliasOfItself document.key) } fun more _ => ?_⟩
    rw [unaliasFrom, if_pos hseen]
    rfl
  cases hlink : document.link? with
  | none =>
    refine ⟨some document, deeper 0 _ draft fun more _ => ?_⟩
    rw [unaliasFrom, if_neg hseen, hlink]
    rfl
  | some link =>
    obtain ⟨found, after, htarget⟩ := target_ends document link draft
    cases found with
    | none => exact ⟨none, deeper 0 none after fun more _ => unaliasFrom_link hseen hlink htarget⟩
    | some next =>
      have hbounded := target_bounded bounded made hlink htarget
      have hmade := hbounded.made next (target_knows htarget).mem
      have hgrows := (target_learns htarget).grows.catalog
      have hless := reach_target made hseen hlink htarget hkeys
      obtain ⟨found, depth, last, hnext⟩ := unaliasFrom_ends (document.key :: seen) next after
        hbounded hmade ((Catalog.keysWithin_eq hgrows _ _).trans hkeys)
      refine ⟨found, deeper depth found last fun more hmore => ?_⟩
      rw [unaliasFrom_link hseen hlink htarget]
      exact hnext more hmore
termination_by reach keys seen document draft
decreasing_by exact hless

theorem unalias_ends (document : Document) (draft : Draft) :
    ∃ found, Gives (unalias · document) draft found := by
  obtain ⟨sources, texts, bounded, made⟩ := draft.catalog.exists_bounded document
  exact unaliasFrom_ends [] document draft bounded made rfl

end SchemaClasses.Drafting
