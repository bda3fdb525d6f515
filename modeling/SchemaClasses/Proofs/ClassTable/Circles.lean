import SchemaClasses.Proofs.ClassTable.Inheritance

/-!
# Circles of bases

Linking stops going up from a class at the first class that it has passed, but what it has found on
the way up from one class does not change the base of another. So the only circle that is cut is
that of a class that is its own base. Classes that are bases of each other stay so in the table, and
going up comes to an end from just the classes from which no two others lead to each other.
-/

namespace SchemaClasses

namespace ClassTable

variable {table : ClassTable} {id : ClassId}

/-- Going up from a class comes to one without a base. -/
def Ends (table : ClassTable) (id : ClassId) : Prop :=
  ∃ top, table.AtOrAbove id top ∧ ∀ base, ¬table.HasBase top base

/-- A class from which going up comes to an end is on no circle. -/
theorem Ends.not_round (h : table.Ends id) : ¬Relation.TransGen table.HasBase id id := by
  obtain ⟨top, habove, hlast⟩ := h
  induction habove using Relation.ReflTransGen.head_induction_on with
  | refl =>
    intro hround
    obtain ⟨base, hbase, -⟩ := Relation.TransGen.head'_iff.mp hround
    exact hlast base hbase
  | @head low base hbase _ ih =>
    intro hround
    obtain ⟨other, hother, hback⟩ := Relation.TransGen.head'_iff.mp hround
    obtain rfl := table.hasBase_rightUnique hother hbase
    exact ih (Relation.TransGen.tail' hback hbase)

theorem Ends.of_atOrAbove {x : ClassId} (h : table.Ends id) (hx : table.AtOrAbove id x) :
    table.Ends x := by
  obtain ⟨top, htop, hlast⟩ := h
  rcases hx.total_of_right_unique table.hasBase_rightUnique htop with hup | hdown
  · exact ⟨top, hup, hlast⟩
  · rcases hdown.cases_head with rfl | ⟨base, hbase, -⟩
    · exact ⟨top, .refl, hlast⟩
    · exact absurd hbase (hlast base)

theorem ends_iff_not_circles (finite : {x | table.AtOrAbove id x}.Finite) :
    table.Ends id ↔ ¬table.Circles id := by
  constructor
  · rintro h ⟨x, hx, hround⟩
    exact (h.of_atOrAbove hx).not_round hround
  · intro noCircle
    obtain ⟨top, htop, -, hhighest⟩ :=
      exists_highest finite noCircle (fun _ => True) .refl trivial
    refine ⟨top, htop, fun base hbase => hhighest base ?_ (.single hbase) trivial⟩
    rintro rfl
    exact noCircle ⟨base, htop, .single hbase⟩

end ClassTable

namespace Linking

variable {l : Linking} {id : ClassId}

/-- The bases that linking goes up to lead into a circle of the table when two different classes
lead to each other. -/
theorem not_circles_iff : ¬l.table.Circles id ↔
    ∀ x y, Relation.ReflTransGen l.Up id x → Relation.ReflTransGen l.Up x y →
      Relation.ReflTransGen l.Up y x → x = y := by
  constructor
  · intro noCircle x y hx hxy hyx
    by_contra hne
    refine noCircle ⟨x, atOrAbove_iff.mpr hx, ?_⟩
    rcases Relation.reflTransGen_iff_eq_or_transGen.mp (atOrAbove_iff.mpr hxy) with heq | hup
    · exact absurd heq.symm hne
    · exact hup.trans_left (atOrAbove_iff.mpr hyx)
  · rintro hsame ⟨x, hx, hround⟩
    obtain ⟨y, hxy, hyx⟩ := Relation.TransGen.head'_iff.mp hround
    obtain ⟨hup, hne⟩ := hasBase_iff.mp hxy
    exact hne (hsame x y (atOrAbove_iff.mp hx) (.single hup) (atOrAbove_iff.mp hyx)).symm

end Linking

namespace Drafting

variable {depth : Nat} {draft after : Draft} {table : ClassTable}

/-- Following bases comes to an end, and never back to a class, unless two different classes on the
way up lead to each other by the bases that their schemas name. No class is its own base. -/
theorem bases_end_iff (h : finish depth draft = some (table, after)) (id : ClassId) :
    ¬table.HasBase id id ∧
      (table.Ends id ↔ ¬table.Circles id) ∧
      (table.Ends id ↔ ∀ x y, Relation.ReflTransGen after.linking.Up id x →
        Relation.ReflTransGen after.linking.Up x y →
        Relation.ReflTransGen after.linking.Up y x → x = y) := by
  obtain ⟨drained, -, rfl, htell⟩ := finish_inv h
  obtain rfl := tell_inv htell
  have hends := ClassTable.ends_iff_not_circles (drained.linking.finite_line id)
  exact ⟨fun hbase => (Linking.hasBase_iff.mp hbase).2 rfl, hends,
    hends.trans Linking.not_circles_iff⟩

end Drafting

def ClassTable.bases (table : ClassTable) : List (Option (Option ClassId)) :=
  table.map fun c => c.object?.map (·.base)

theorem ClassTable.hasBase_iff_bases {table : ClassTable} {id base : ClassId} :
    table.HasBase id base ↔ table.bases[id]? = some (some (some base)) := by
  rw [bases, List.getElem?_map, HasBase]
  change (∃ c object, table[id]? = some c ∧ _) ↔ _
  cases table[id]? with
  | none => simp
  | some c => simp [Option.map_eq_some_iff]

/-- Two schemas that each have the other as their base become classes that are bases of each
other. -/
theorem Drafting.bases_circle :
    let schemas : List (String × Json) :=
      [("c", .derivedFrom "b" "p" .number), ("b", .derivedFrom "c" "p" .number)]
    ∃ ids draft table after, Called (.onSchemas schemas) ids draft ∧
      finish 8 draft = some (table, after) ∧ table.HasBase 0 1 ∧ table.HasBase 1 0 ∧
      table.Circles 0 ∧ ∀ top, table.AtOrAbove 0 top → ∃ base, table.HasBase top base := by
  intro schemas
  obtain ⟨ids, draft, table, after, hcalled, hfinish, hbases⟩ :=
    exists_finish (.onSchemas schemas) (·.1.bases) [some (some 1), some (some 0)]
      (by decide +kernel)
  have hfirst : table.HasBase 0 1 := ClassTable.hasBase_iff_bases.mpr (by rw [hbases]; rfl)
  have hsecond : table.HasBase 1 0 := ClassTable.hasBase_iff_bases.mpr (by rw [hbases]; rfl)
  refine ⟨ids, draft, table, after, hcalled, hfinish, hfirst, hsecond,
    ⟨0, .refl, .head hfirst (.single hsecond)⟩, fun top htop => ?_⟩
  have hcases : top = 0 ∨ top = 1 := by
    induction htop with
    | refl => exact .inl rfl
    | tail _ hbase ih =>
      rcases ih with rfl | rfl
      · exact .inr (table.hasBase_rightUnique hbase hfirst)
      · exact .inl (table.hasBase_rightUnique hbase hsecond)
  rcases hcases with rfl | rfl
  · exact ⟨1, hfirst⟩
  · exact ⟨0, hsecond⟩

/-- A class that is its own base has none in the table, and the class below it ends there. -/
theorem Drafting.bases_end_iff_own :
    let schemas : List (String × Json) :=
      [("c", .derivedFrom "b" "p" .number), ("b", .derivedFrom "b" "p" .number)]
    ∃ ids draft table after, Called (.onSchemas schemas) ids draft ∧
      finish 8 draft = some (table, after) ∧ table.HasBase 0 1 ∧ ¬table.HasBase 1 1 ∧
      table.Ends 0 ∧ ¬table.Circles 0 := by
  intro schemas
  obtain ⟨ids, draft, table, after, hcalled, hfinish, hbases⟩ :=
    exists_finish (.onSchemas schemas) (·.1.bases) [some (some 1), some none]
      (by decide +kernel)
  have hfirst : table.HasBase 0 1 := ClassTable.hasBase_iff_bases.mpr (by rw [hbases]; rfl)
  have hends : table.Ends 0 := by
    refine ⟨1, .single hfirst, fun base hbase => ?_⟩
    rw [ClassTable.hasBase_iff_bases, hbases] at hbase
    cases hbase
  exact ⟨ids, draft, table, after, hcalled, hfinish, hfirst, (bases_end_iff hfinish 1).1, hends,
    (bases_end_iff hfinish 0).2.1.mp hends⟩

end SchemaClasses
