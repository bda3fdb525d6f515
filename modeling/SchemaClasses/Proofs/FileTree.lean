import Mathlib.Data.List.Induction
import SchemaClasses.FileTree
import SchemaClasses.Proofs.Catalog.Keys

/-!
# Places in file trees

No links redirect a path, so its spelling alone says which place it means, and the canonical one
lists the components on the way. Making directories changes no file, and writing changes the file at
one place. Nothing is ever taken away, so a path that leads to a place leads there afterwards, too.
-/

namespace SchemaClasses

namespace Location

theorem components_append (before after : String) :
    components (before ++ "/" ++ after) = components before ++ components after := by
  have htext : (before ++ "/" ++ after).toList = before.toList ++ '/' :: after.toList := by simp
  rw [components, htext, Text.pieces_append rfl, List.map_append]
  rfl

theorem components_of_not_mem {name : String} (h : '/' ∉ name.toList) :
    components name = [name] := by
  have hpieces : Text.pieces (· == '/') name.toList = [name.toList] := by
    apply Text.pieces_of_none
    intro c hc
    rw [beq_eq_false_iff_ne]
    rintro rfl
    exact h hc
  rw [components, hpieces, List.map_singleton, String.ofList_toList]

theorem isAbsolute_of_not_mem {name : String} (h : '/' ∉ name.toList) :
    isAbsolute name = false := by
  exact decide_eq_false fun hhead => h (List.mem_of_head? hhead)

theorem isAbsolute_append_of_ne {before : String} (h : before ≠ "") (after : String) :
    isAbsolute (before ++ after) = isAbsolute before := by
  obtain ⟨c, rest, hcs⟩ := List.exists_cons_of_ne_nil (mt String.toList_eq_nil_iff.mp h)
  unfold isAbsolute
  rw [String.toList_append, hcs, List.cons_append, List.head?_cons, List.head?_cons]

theorem components_ne_nil (path : String) : components path ≠ [] :=
  mt List.map_eq_nil_iff.mp (Text.pieces_ne_nil _ _)

/-- A component that leads one directory further down. -/
structure IsComponent (part : String) : Prop where
  slash : '/' ∉ part.toList
  nonempty : part ≠ ""
  dot : part ≠ "."

theorem trimEnd_of_isComponent {parts : List String} (h : ∀ part ∈ parts, IsComponent part) :
    trimEnd true parts = parts := by
  have hrest : (parts.reverse.dropWhile fun part => part = "" || part = ".") = parts.reverse := by
    cases hparts : parts.reverse with
    | nil => rfl
    | cons last rest =>
      have hmem : last ∈ parts := List.mem_reverse.mp (hparts ▸ List.mem_cons_self)
      obtain ⟨-, hempty, hdot⟩ := h last hmem
      simp [hempty, hdot]
  simp only [trimEnd, hrest, List.reverse_reverse]

end Location

namespace FileTree

variable {tree before between after : FileTree} {path : String} {place : List String}

/-- The place one component further, as far as its spelling tells. -/
def step (place : List String) (component : String) : List String :=
  if component = "" ∨ component = "." then place
  else if component = ".." then place.dropLast
  else place ++ [component]

/-- The place that a path means, whether or not it leads there. -/
def spot (tree : FileTree) (path : String) : List String :=
  (Location.components path).foldl step (tree.startOf path)

/-- The text of the file at a place. -/
def file? (tree : FileTree) (place : List String) : Option (Option String) :=
  match tree.node? place with
  | some (.file text) => some text
  | _ => none

theorem file?_eq_some {text : Option String} :
    tree.file? place = some text ↔ tree.node? place = some (.file text) := by
  unfold file?
  split
  · rename_i found hfound
    rw [hfound]
    simp
  · rename_i hother
    simpa using hother text

/-- One component leads on from a directory: to a place on the way, or to a name that is there. -/
theorem follow_iff {component : String} {next : List String} :
    tree.follow place component = .ok next ↔
      tree.node? place = some .directory ∧ next = step place component ∧
        ((component = "" ∨ component = ".") ∨ component = ".." ∨
          isName component = true ∧ (tree.node? (place ++ [component])).isSome = true) := by
  unfold follow step
  split
  · rename_i hnode
    simp [hnode]
  · rename_i hnode
    simp [hnode]
  · rename_i hnode
    by_cases hidle : component = "" ∨ component = "."
    · simp only [hnode, hidle, if_true, Except.ok.injEq, true_or, and_true, true_and, eq_comm]
    by_cases hup : component = ".."
    · rw [if_neg hidle, if_neg hidle, if_pos hup, if_pos hup]
      simp [hnode, hup, @eq_comm _ next]
    cases isName component with
    | false => simp [hidle, hup]
    | true =>
      cases (tree.node? (place ++ [component])).isSome <;> simp [hnode, hidle, hup, eq_comm]

theorem foldlM_follow_cons {start next : List String} {part : String} {parts : List String}
    (h : (part :: parts).foldlM tree.follow start = .ok next) :
    ∃ further, tree.follow start part = .ok further ∧
      parts.foldlM tree.follow further = .ok next := by
  rw [List.foldlM_cons] at h
  cases hfirst : tree.follow start part with
  | error fault =>
    rw [hfirst] at h
    cases h
  | ok further =>
    rw [hfirst] at h
    exact ⟨further, rfl, h⟩

theorem foldlM_follow_eq {start next : List String} {parts : List String}
    (h : parts.foldlM tree.follow start = .ok next) : next = parts.foldl step start := by
  induction parts generalizing start with
  | nil => exact (Except.ok.inj h).symm
  | cons part parts ih =>
    obtain ⟨further, hfirst, hrest⟩ := foldlM_follow_cons h
    rw [List.foldl_cons, ← (follow_iff.mp hfirst).2.1]
    exact ih hrest

theorem place_iff : tree.place path = .ok place ↔ path ≠ "" ∧ isShort path = true ∧
    (Location.components path).foldlM tree.follow (tree.startOf path) = .ok place := by
  unfold FileTree.place followAll
  split
  · rename_i hpath
    simp [hpath]
  split
  · rename_i hpath hshort
    simp_all
  · rename_i hpath hshort
    simp_all

theorem readText?_eq (h : tree.place path = .ok place) :
    tree.readText? path = (tree.file? place).join := by
  unfold readText? file?
  rw [h]
  dsimp only
  cases tree.node? place with
  | none => rfl
  | some node => cases node <;> rfl

theorem target_inv (h : tree.target path = .ok place) :
    path ≠ "" ∧ isShort path = true ∧ ∃ parts name directory,
      Location.components path = parts ++ [name] ∧
      parts.foldlM tree.follow (tree.startOf path) = .ok directory ∧
      tree.node? directory = some .directory ∧
      ¬(name = "" ∨ name = ".") ∧ name ≠ ".." ∧ isName name = true ∧
      place = directory ++ [name] := by
  obtain ⟨parts, name, hparts⟩ := (List.eq_nil_or_concat (Location.components path)).resolve_left
    (Location.components_ne_nil path)
  rw [List.concat_eq_append] at hparts
  unfold target followAll at h
  simp only [hparts, throw, throwThe, MonadExceptOf.throw, bind, Except.bind, pure, Except.pure,
    List.getLastD_concat, List.dropLast_concat] at h
  split at h
  · cases h
  rename_i hpath
  split at h
  · cases h
  rename_i hshort
  split at h
  · cases h
  rename_i directory hdirectory
  split at h
  · rename_i hnode
    split at h
    · cases h
    rename_i hspecial
    split at h
    · cases h
    rename_i hname
    exact ⟨hpath, by simpa using hshort, parts, name, directory, hparts, hdirectory, hnode,
      fun hidle => hspecial (hidle.imp_right .inl), fun hup => hspecial (.inr (.inr hup)),
      by simpa using hname, (Except.ok.inj h).symm⟩
  · cases h
  · cases h

theorem target_eq (h : tree.target path = .ok place) : place = tree.spot path := by
  obtain ⟨-, -, parts, name, directory, hparts, hdirectory, -, hidle, hup, -, rfl⟩ := target_inv h
  rw [spot, hparts, List.foldl_append, ← foldlM_follow_eq hdirectory, List.foldl_cons,
    List.foldl_nil, step, if_neg hidle, if_neg hup]

theorem target_ne_nil (h : tree.target path = .ok place) : place ≠ [] := by
  obtain ⟨-, -, parts, name, directory, -, -, -, -, -, -, rfl⟩ := target_inv h
  exact List.concat_ne_nil _ _

theorem startOf_append (tree : FileTree) {start : String} (h : start ≠ "") (rest : String) :
    tree.startOf (start ++ rest) = tree.startOf start := by
  rw [startOf, startOf, Location.isAbsolute_append_of_ne h]

/-- A name in a directory is one component further than the directory. -/
theorem spot_join (tree : FileTree) (directory : String) {name : String}
    (hslash : '/' ∉ name.toList) :
    tree.spot (Location.join directory name) = step (tree.spot directory) name := by
  have hname := Location.components_of_not_mem hslash
  unfold Location.join
  rw [Location.isAbsolute_of_not_mem hslash, if_neg Bool.false_ne_true]
  split
  · rename_i hclosed
    by_cases hempty : directory = ""
    · subst hempty
      rw [String.empty_append, spot, spot, hname, startOf, Location.isAbsolute_of_not_mem hslash]
      rfl
    · obtain ⟨start, hstart⟩ := List.getLast?_eq_some_iff.mp (hclosed.resolve_left hempty)
      have hsplit (rest : String) : Location.components (directory ++ rest) =
          Location.components (String.ofList start) ++ Location.components rest := by
        rw [← Location.components_append]
        congr 1
        simp [← String.toList_inj, hstart]
      have hdirectory := hsplit ""
      rw [String.append_empty] at hdirectory
      rw [spot, spot, startOf_append tree hempty, hsplit, hname, hdirectory, List.foldl_append,
        List.foldl_append]
      rfl
  · rename_i hopen
    rw [spot, String.append_assoc, startOf_append tree fun hempty => hopen (.inl hempty),
      ← String.append_assoc, Location.components_append, hname, List.foldl_append]
    rfl

/-! ### Canonical spellings -/

section

open Location

variable {next : List String} {file name : String}

theorem followShort_inv {component : String}
    (h : tree.followShort place component = .ok next) :
    tree.follow place component = .ok next := by
  unfold followShort at h
  cases hfollow : tree.follow place component with
  | error fault =>
    rw [hfollow] at h
    cases h
  | ok found =>
    rw [hfollow] at h
    change (if isShort (spell found) then Except.ok found else .error PathFault.badName) = _ at h
    split at h
    · exact h
    · cases h

/-- What one component keeps, components one after another keep. -/
theorem followAllShort_keeps {kept : List String → Prop} {components : List String}
    (keeps : ∀ {place next : List String} {component : String}, component ∈ components →
      kept place → tree.follow place component = .ok next → kept next)
    (hplace : kept place) (h : components.foldlM tree.followShort place = .ok next) :
    kept next := by
  induction components generalizing place with
  | nil =>
    obtain rfl := Except.ok.inj h
    exact hplace
  | cons component rest ih =>
    rw [List.foldlM_cons] at h
    cases hfirst : tree.followShort place component with
    | error fault =>
      rw [hfirst] at h
      cases h
    | ok between =>
      rw [hfirst] at h
      have hbetween := keeps List.mem_cons_self hplace (followShort_inv hfirst)
      exact ih (fun hmem => keeps (List.mem_cons_of_mem _ hmem)) hbetween h

theorem canonical?_inv {location key : String} (h : tree.canonical? location = some key) :
    ∃ place, (Location.components location).foldlM tree.followShort (tree.startOf location) =
      .ok place ∧ key = spell place := by
  unfold canonical? at h
  split at h
  · cases h
  · split at h
    · rename_i place hplace
      exact ⟨place, hplace, (Option.some.inj h).symm⟩
    · cases h

theorem toList_spell (place : List String) :
    (spell place).toList = '/' :: ['/'].intercalate (place.map String.toList) := by
  simp [spell, String.toList_intercalate]

theorem isAbsolute_spell (place : List String) : isAbsolute (spell place) = true := by
  simp [isAbsolute, toList_spell]

theorem spell_singleton (name : String) : spell [name] = "" ++ "/" ++ name := by simp [spell]

theorem spell_concat (hne : place ≠ []) (name : String) :
    spell (place ++ [name]) = spell place ++ "/" ++ name := by
  rw [spell, String.intercalate_append_of_ne_nil hne (List.cons_ne_nil _ _),
    String.intercalate_singleton, ← String.append_assoc, ← String.append_assoc]
  rfl

theorem exists_spell_concat (place : List String) (name : String) :
    ∃ directory, spell (place ++ [name]) = directory ++ "/" ++ name := by
  by_cases hne : place = []
  · subst hne
    exact ⟨"", spell_singleton name⟩
  · exact ⟨spell place, spell_concat hne name⟩

theorem components_spell (hne : place ≠ []) (h : ∀ part ∈ place, '/' ∉ part.toList) :
    components (spell place) = "" :: place := by
  induction place using List.reverseRecOn with
  | nil => exact absurd rfl hne
  | append_singleton place name ih =>
    have hname := components_of_not_mem (h name (by simp))
    by_cases hroot : place = []
    · subst hroot
      rw [List.nil_append, spell_singleton, components_append, hname]
      rfl
    · have hplace := ih hroot fun part hpart => h part (List.mem_append_left _ hpart)
      rw [spell_concat hroot, components_append, hname, hplace, List.cons_append]

theorem parent?_spell (h : ∀ part ∈ place ++ [file], IsComponent part) :
    parent? (spell (place ++ [file])) = some (spell place) := by
  have hplace : ∀ part ∈ place, IsComponent part := fun part hpart =>
    h part (List.mem_append_left _ hpart)
  unfold parent?
  rw [isAbsolute_spell, components_spell (by simp) fun part hpart => (h part hpart).slash]
  simp [trimEnd_of_isComponent h, trimEnd_of_isComponent hplace, spell]

theorem getLast?_spell (h : ∀ part ∈ place, IsComponent part) (hne : place ≠ []) :
    (spell place).toList.getLast? ≠ some '/' := by
  obtain ⟨above, last, rfl⟩ : ∃ above last, place = above ++ [last] :=
    ⟨_, _, (List.dropLast_concat_getLast hne).symm⟩
  obtain ⟨hslash, hempty, -⟩ := h last (by simp)
  obtain ⟨directory, hspell⟩ := exists_spell_concat above last
  have hne : last.toList ≠ [] := by simpa using hempty
  rw [hspell, String.toList_append, List.getLast?_append, List.getLast?_eq_some_getLast hne,
    Option.some_or]
  exact fun hlast => hslash (Option.some.inj hlast ▸ List.getLast_mem hne)

theorem join_spell (h : ∀ part ∈ place, IsComponent part) (hname : isAbsolute name = false) :
    join (spell place) name = spell (place ++ [name]) := by
  unfold join
  rw [hname, if_neg Bool.false_ne_true]
  by_cases hroot : place = []
  · subst hroot
    simp [spell]
  · have hne : spell place ≠ "" := fun hempty => by
      have := congrArg String.toList hempty
      simp [toList_spell] at this
    rw [if_neg (by simp [hne, getLast?_spell h hroot]), spell_concat hroot]

theorem follow_isComponent {component : String} (hcomponent : '/' ∉ component.toList)
    (hplace : ∀ part ∈ place, IsComponent part) (h : tree.follow place component = .ok next) :
    ∀ part ∈ next, IsComponent part := by
  obtain ⟨-, rfl, -⟩ := follow_iff.mp h
  unfold step
  split
  · exact hplace
  · rename_i hidle
    split
    · exact fun part hpart => hplace part (List.dropLast_subset _ hpart)
    · obtain ⟨hempty, hdot⟩ := not_or.mp hidle
      simpa [or_imp, forall_and] using ⟨hplace, hcomponent, hempty, hdot⟩

end

def lastPut (changes : List (List String × Option String)) (place : List String) :
    Option (Option String) :=
  ((changes.filter (·.1 = place)).map Prod.snd).getLast?

/-- Files have been put at places, one after another, and directories may have been made. -/
structure Alters (changes : List (List String × Option String)) (before after : FileTree) :
    Prop where
  workingDirectory : after.workingDirectory = before.workingDirectory
  directory : ∀ place, before.node? place = some .directory → after.node? place = some .directory
  file : ∀ place, after.file? place = (lastPut changes place).or (before.file? place)

variable {changes later : List (List String × Option String)}

theorem lastPut_append (changes later : List (List String × Option String))
    (place : List String) :
    lastPut (changes ++ later) place = (lastPut later place).or (lastPut changes place) := by
  rw [lastPut, List.filter_append, List.map_append, List.getLast?_append]
  rfl

namespace Alters

theorem refl (tree : FileTree) : Alters [] tree tree := ⟨rfl, fun _ h => h, fun _ => rfl⟩

theorem trans (hfirst : Alters changes before between) (hsecond : Alters later between after) :
    Alters (changes ++ later) before after where
  workingDirectory := hsecond.workingDirectory.trans hfirst.workingDirectory
  directory place h := hsecond.directory place (hfirst.directory place h)
  file place := by
    rw [hsecond.file, hfirst.file, lastPut_append, Option.or_assoc]

theorem node_isSome (h : Alters changes before after) (hnode : (before.node? place).isSome) :
    (after.node? place).isSome := by
  obtain ⟨node, hnode⟩ := Option.isSome_iff_exists.mp hnode
  cases node with
  | directory => rw [h.directory place hnode]; rfl
  | file text =>
    have hfile : (after.file? place).isSome := by
      rw [h.file, file?_eq_some.mpr hnode, Option.isSome_or, Option.isSome_some, Bool.or_true]
    obtain ⟨text, hfile⟩ := Option.isSome_iff_exists.mp hfile
    rw [file?_eq_some.mp hfile]
    rfl

theorem startOf_eq (h : Alters changes before after) (path : String) :
    after.startOf path = before.startOf path := by
  rw [startOf, startOf, h.workingDirectory]

theorem spot_eq (h : Alters changes before after) (path : String) :
    after.spot path = before.spot path := by
  rw [spot, spot, h.startOf_eq]

theorem follow (h : Alters changes before after) {component : String} {next : List String}
    (hfollow : before.follow place component = .ok next) :
    after.follow place component = .ok next := by
  obtain ⟨hnode, hnext, hcases⟩ := follow_iff.mp hfollow
  refine follow_iff.mpr ⟨h.directory place hnode, hnext, ?_⟩
  exact hcases.imp_right (Or.imp_right (And.imp_right h.node_isSome))

theorem foldlM_follow (h : Alters changes before after) {start next : List String}
    {parts : List String} (hparts : parts.foldlM before.follow start = .ok next) :
    parts.foldlM after.follow start = .ok next := by
  induction parts generalizing start with
  | nil => exact hparts
  | cons part parts ih =>
    obtain ⟨further, hfirst, hrest⟩ := foldlM_follow_cons hparts
    rw [List.foldlM_cons, h.follow hfirst]
    exact ih hrest

theorem leads (h : Alters changes before after) {found : List String}
    (hplace : before.place path = .ok found) : after.place path = .ok found := by
  obtain ⟨hpath, hshort, hparts⟩ := place_iff.mp hplace
  exact place_iff.mpr ⟨hpath, hshort, h.startOf_eq path ▸ h.foldlM_follow hparts⟩

end Alters

theorem node?_put (hplace : place ≠ []) (node : FileNode) (other : List String) :
    (tree.put place node).node? other = if place = other then some node else tree.node? other := by
  unfold node? put
  cases other with
  | nil => simp [hplace]
  | cons => simp [Ordered.get?_put]

theorem alters_put_file (hne : place ≠ []) (hplace : tree.node? place ≠ some .directory)
    (text : Option String) : Alters [(place, text)] tree (tree.put place (.file text)) where
  workingDirectory := rfl
  directory other hother := by
    rw [node?_put hne, if_neg (by rintro rfl; exact hplace hother), hother]
  file other := by
    unfold file?
    rw [node?_put hne]
    by_cases heq : place = other <;> simp [lastPut, heq]

theorem alters_put_directory (hne : place ≠ []) (hplace : tree.node? place = none) :
    Alters [] tree (tree.put place .directory) where
  workingDirectory := rfl
  directory other hother := by
    rw [node?_put hne, hother, ite_self]
  file other := by
    unfold file?
    rw [node?_put hne]
    by_cases heq : place = other
    · simp [lastPut, ← heq, hplace]
    · simp [lastPut, heq]

theorem makeDirectory_alters (h : tree.makeDirectory path = .ok after) : Alters [] tree after := by
  unfold makeDirectory at h
  simp only [throw, throwThe, MonadExceptOf.throw, bind, Except.bind, pure, Except.pure] at h
  split at h
  · cases h
  split at h
  · cases h
  split at h
  · cases h
  rename_i htarget
  split at h
  · cases h
  rename_i hnode
  rw [← Except.ok.inj h]
  exact alters_put_directory (target_ne_nil htarget) (by simpa using hnode)

theorem makeDirectoriesUpTo_alters {limit : Nat}
    (h : makeDirectoriesUpTo limit tree path = some after) : Alters [] tree after := by
  fun_induction makeDirectoriesUpTo limit tree path generalizing after with
  | case1 limit tree =>
    obtain rfl := Option.some.inj h
    exact .refl _
  | case2 limit tree path hpath made hmade =>
    obtain rfl := Option.some.inj h
    exact makeDirectory_alters hmade
  | case3 tree path hpath hfault limit parent hparent ih =>
    obtain ⟨above, habove, h⟩ := Option.bind_eq_some_iff.mp h
    refine (ih habove).trans ?_
    split at h
    · rename_i hmade
      obtain rfl := Option.some.inj h
      exact makeDirectory_alters hmade
    split at h
    · obtain rfl := Option.some.inj h
      exact .refl _
    · cases h
  | case4 => cases h
  | case5 limit tree =>
    obtain rfl := Option.some.inj h
    exact .refl _
  | case6 => cases h

theorem makeDirectories_alters (h : tree.makeDirectories path = some after) :
    Alters [] tree after :=
  makeDirectoriesUpTo_alters h

/-- A path leads to the file that has been written there. -/
theorem write_alters {text : Option String} (h : tree.write path text = some after) :
    Alters [(tree.spot path, text)] tree after ∧ after.place path = .ok (tree.spot path) := by
  unfold write at h
  split at h
  · cases h
  rename_i place htarget
  split at h
  · cases h
  rename_i hplace
  obtain rfl := Option.some.inj h
  rw [← target_eq htarget]
  have alters := alters_put_file (target_ne_nil htarget) hplace text
  refine ⟨alters, ?_⟩
  obtain ⟨hpath, hshort, parts, name, directory, hparts, hdirectory, hnode, hidle, hup, hname,
    rfl⟩ := target_inv htarget
  have hstep : step directory name = directory ++ [name] := by rw [step, if_neg hidle, if_neg hup]
  have hlast : (tree.put (directory ++ [name]) (.file text)).follow directory name =
      .ok (directory ++ [name]) := by
    refine follow_iff.mpr ⟨alters.directory _ hnode, hstep.symm, .inr (.inr ⟨hname, ?_⟩)⟩
    rw [node?_put (List.concat_ne_nil _ _), if_pos rfl]
    rfl
  refine place_iff.mpr ⟨hpath, hshort, ?_⟩
  rw [hparts, List.foldlM_append, alters.startOf_eq, alters.foldlM_follow hdirectory]
  exact congrArg (· >>= pure) hlast

end FileTree

end SchemaClasses
