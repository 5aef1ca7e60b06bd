import HostBindings.Proofs.Traversal
import HostBindings.Rust.Assembly
import Mathlib.Data.List.Nodup
import Mathlib.Data.List.Perm.Basic

/-!
Assembly loses nothing. Adding an item to others keeps every scope name unique at its level, and
the bindings below the result are those of both sides.
-/

namespace HostBindings.Rust.Item

/-- Every binding below the items, with the scopes that lead to it. -/
def placed (path : List Text) (items : List Item) : List (List Text × Binding) :=
  (blocksOf path items).flatMap fun block => block.2.map fun b => (block.1, b)

/-- Every binding below the items. -/
def allBindings (items : List Item) : List Binding := (blocksOf [] items).flatMap (·.2)

/-- The scope modules among the items, by name. -/
def scopes (items : List Item) : List (Text × List Item) :=
  items.filterMap fun
    | .scope name inner => some (name, inner)
    | _ => none

/-- No name is that of two scope modules next to each other, at any depth. -/
inductive UniqueScopes : List Item → Prop
  | intro {items : List Item} (hnodup : ((scopes items).map (·.1)).Nodup)
      (hinner : ∀ scope ∈ scopes items, UniqueScopes scope.2) : UniqueScopes items

theorem UniqueScopes.nodup {items : List Item} (h : UniqueScopes items) :
    ((scopes items).map (·.1)).Nodup := by
  cases h with
  | intro hnodup _ => exact hnodup

theorem UniqueScopes.inner {items : List Item} (h : UniqueScopes items) :
    ∀ scope ∈ scopes items, UniqueScopes scope.2 := by
  cases h with
  | intro _ hinner => exact hinner

mutual

theorem map_snd_blocks (path : List Text) (item : Item) :
    (blocks path item).map (·.2) = (blocks [] item).map (·.2) := by
  cases item with
  | use u => rfl
  | stray written => rfl
  | block bindings => rfl
  | scope name items =>
      rw [blocks, blocks, map_snd_blocksOf (path ++ [name]) items,
        map_snd_blocksOf ([] ++ [name]) items]

theorem map_snd_blocksOf (path : List Text) (items : List Item) :
    (blocksOf path items).map (·.2) = (blocksOf [] items).map (·.2) := by
  cases items with
  | nil => rfl
  | cons item rest =>
      rw [blocksOf, blocksOf, List.map_append, List.map_append, map_snd_blocks path item,
        map_snd_blocksOf path rest]

end

section

variable (path : List Text)

@[simp] theorem placed_nil : placed path [] = [] := rfl

theorem placed_append (items more : List Item) :
    placed path (items ++ more) = placed path items ++ placed path more := by
  simp [placed, blocksOf_append]

@[simp] theorem placed_use_cons (u : Use) (rest : List Item) :
    placed path (.use u :: rest) = placed path rest := by
  simp [placed, blocksOf, blocks]

@[simp] theorem placed_stray_cons (written : Text) (rest : List Item) :
    placed path (.stray written :: rest) = placed path rest := by
  simp [placed, blocksOf, blocks]

@[simp] theorem placed_block_cons (bindings : List Binding) (rest : List Item) :
    placed path (.block bindings :: rest) =
      bindings.map (fun b => (path, b)) ++ placed path rest := by
  simp [placed, blocksOf, blocks]

@[simp] theorem placed_scope_cons (name : Text) (inner rest : List Item) :
    placed path (.scope name inner :: rest) =
      placed (path ++ [name]) inner ++ placed path rest := by
  simp [placed, blocksOf, blocks]

theorem placed_cons (item : Item) (rest : List Item) :
    placed path (item :: rest) = placed path [item] ++ placed path rest :=
  placed_append path [item] rest

theorem placed_eq_flatMap (items : List Item) :
    placed path items = items.flatMap fun item => placed path [item] := by
  induction items with
  | nil => rfl
  | cons item rest ih => rw [placed_cons, List.flatMap_cons, ← ih]

theorem placed_perm {items others : List Item} (h : items.Perm others) :
    (placed path items).Perm (placed path others) := by
  rw [placed_eq_flatMap path items, placed_eq_flatMap path others]
  exact h.flatMap_right _

theorem allBindings_eq (items : List Item) : allBindings items = (placed path items).map (·.2) := by
  rw [allBindings, List.flatMap_def, ← map_snd_blocksOf path items, placed, List.map_flatMap,
    ← List.flatMap_def]
  simp [Function.comp_def]

end

@[simp] theorem allBindings_nil : allBindings [] = [] := rfl

theorem allBindings_append (items more : List Item) :
    allBindings (items ++ more) = allBindings items ++ allBindings more := by
  simp [allBindings, blocksOf_append]

@[simp] theorem allBindings_use_cons (u : Use) (rest : List Item) :
    allBindings (.use u :: rest) = allBindings rest := by
  simp [allBindings, blocksOf, blocks]

@[simp] theorem allBindings_stray_cons (written : Text) (rest : List Item) :
    allBindings (.stray written :: rest) = allBindings rest := by
  simp [allBindings, blocksOf, blocks]

@[simp] theorem allBindings_block_cons (bindings : List Binding) (rest : List Item) :
    allBindings (.block bindings :: rest) = bindings ++ allBindings rest := by
  simp [allBindings, blocksOf, blocks]

@[simp] theorem allBindings_scope_cons (name : Text) (inner rest : List Item) :
    allBindings (.scope name inner :: rest) = allBindings inner ++ allBindings rest := by
  have hpath := map_snd_blocksOf [name] inner
  simp only [allBindings, blocksOf, blocks, List.nil_append, List.flatMap_append]
  rw [List.flatMap_def, hpath, ← List.flatMap_def]

theorem allBindings_mapBlocksOf (f : List Binding → List Binding)
    (happend : ∀ xs ys, f (xs ++ ys) = f xs ++ f ys) (hnil : f [] = []) (items : List Item) :
    allBindings (mapBlocksOf f items) = f (allBindings items) := by
  rw [allBindings, allBindings, blocksOf_mapBlocksOf]
  induction blocksOf [] items with
  | nil => exact hnil.symm
  | cons block rest ih => simp [happend, ih]

theorem allBindings_enclose (name : Text) (items : List Item) :
    allBindings (enclose name items) = (allBindings items).map (Binding.enclose name) :=
  allBindings_mapBlocksOf _ (fun _ _ => List.map_append) rfl items

@[simp] theorem scopes_nil : scopes [] = [] := rfl

@[simp] theorem scopes_scope_cons (name : Text) (inner rest : List Item) :
    scopes (.scope name inner :: rest) = (name, inner) :: scopes rest := rfl

@[simp] theorem scopes_use_cons (u : Use) (rest : List Item) :
    scopes (.use u :: rest) = scopes rest := rfl

@[simp] theorem scopes_stray_cons (written : Text) (rest : List Item) :
    scopes (.stray written :: rest) = scopes rest := rfl

@[simp] theorem scopes_block_cons (bindings : List Binding) (rest : List Item) :
    scopes (.block bindings :: rest) = scopes rest := rfl

theorem uniqueScopes_nil : UniqueScopes [] := ⟨List.nodup_nil, nofun⟩

theorem uniqueScopes_of_scopes_eq {items others : List Item} (h : UniqueScopes items)
    (hscopes : scopes others = scopes items) : UniqueScopes others :=
  ⟨hscopes ▸ h.nodup, hscopes ▸ h.inner⟩

theorem uniqueScopes_perm {items others : List Item} (h : UniqueScopes items)
    (hperm : others.Perm items) : UniqueScopes others := by
  have hscopes : (scopes others).Perm (scopes items) := hperm.filterMap _
  refine ⟨(hscopes.map _).nodup_iff.mpr h.nodup, ?_⟩
  intro scope hscope
  exact h.inner scope (hscopes.mem_iff.mp hscope)

theorem uniqueScopes_cons {item : Item} {rest : List Item} (h : UniqueScopes (item :: rest)) :
    UniqueScopes [item] ∧ UniqueScopes rest := by
  have hscopes : scopes (item :: rest) = scopes [item] ++ scopes rest := by
    cases item <;> rfl
  have hnodup := h.nodup
  have hinner := h.inner
  rw [hscopes] at hnodup hinner
  rw [List.map_append] at hnodup
  obtain ⟨hitem, hrest, _⟩ := List.nodup_append.mp hnodup
  exact ⟨⟨hitem, fun scope hscope => hinner scope (List.mem_append_left _ hscope)⟩,
    ⟨hrest, fun scope hscope => hinner scope (List.mem_append_right _ hscope)⟩⟩

theorem uniqueScopes_of_mem {items : List Item} (h : UniqueScopes items) :
    ∀ item ∈ items, UniqueScopes [item] := by
  induction items with
  | nil => exact List.forall_mem_nil _
  | cons item rest ih =>
      obtain ⟨hitem, hrest⟩ := uniqueScopes_cons h
      exact List.forall_mem_cons.mpr ⟨hitem, ih hrest⟩

theorem hasScope_iff {name : Text} {items : List Item} :
    hasScope name items = true ↔ name ∈ (scopes items).map (·.1) := by
  induction items with
  | nil => simp [hasScope]
  | cons item rest ih =>
      rw [hasScope, List.any_cons, ← hasScope, Bool.or_eq_true, ih]
      cases item with
      | scope other inner =>
          simp only [scopes_scope_cons, List.map_cons, List.mem_cons, beq_iff_eq]
          exact or_congr_left eq_comm
      | _ => simp

theorem scopes_mapBlocksOf (f : List Binding → List Binding) (items : List Item) :
    scopes (mapBlocksOf f items) =
      (scopes items).map fun scope => (scope.1, mapBlocksOf f scope.2) := by
  induction items with
  | nil => rfl
  | cons item rest ih => cases item <;> simp [mapBlocksOf, mapBlocks, ih]

theorem UniqueScopes.mapBlocksOf {items : List Item} (h : UniqueScopes items)
    (f : List Binding → List Binding) : UniqueScopes (mapBlocksOf f items) := by
  induction h with
  | @intro items hnodup _ ih =>
      refine ⟨?_, ?_⟩
      · rw [scopes_mapBlocksOf, List.map_map]
        exact hnodup
      · intro scope hscope
        rw [scopes_mapBlocksOf] at hscope
        obtain ⟨original, horiginal, rfl⟩ := List.mem_map.mp hscope
        exact ih original horiginal

theorem scopes_addBindings (bindings : List Binding) (items : List Item) :
    scopes (addBindings bindings items) = scopes items := by
  induction items with
  | nil =>
      rw [addBindings]
      split <;> rfl
  | cons item rest ih => cases item <;> simp [addBindings, ih]

theorem placed_addBindings (path : List Text) (bindings : List Binding) (items : List Item) :
    (placed path (addBindings bindings items)).Perm
      (placed path items ++ bindings.map fun b => (path, b)) := by
  induction items with
  | nil =>
      rw [addBindings]
      split
      · simp_all
      · simp
  | cons item rest ih =>
      cases item with
      | use u => simpa [addBindings] using ih
      | stray written => simpa [addBindings] using ih
      | scope name inner =>
          simp only [addBindings, placed_scope_cons, List.append_assoc]
          exact ih.append_left _
      | block existing =>
          simp only [addBindings, placed_block_cons, List.map_append, List.append_assoc]
          exact List.perm_append_comm.append_left _

theorem allBindings_addBindings (bindings : List Binding) (items : List Item) :
    (allBindings (addBindings bindings items)).Perm (allBindings items ++ bindings) := by
  have hplaced := (placed_addBindings [] bindings items).map (·.2)
  simpa [allBindings_eq [], Function.comp_def] using hplaced

theorem insertBeforeBlock_perm (item : Item) (items : List Item) :
    (insertBeforeBlock item items).Perm (item :: items) := by
  induction items with
  | nil => exact List.Perm.refl _
  | cons other rest ih =>
      cases other with
      | block bindings => exact List.Perm.refl _
      | _ => exact (ih.cons _).trans (List.Perm.swap _ _ _)

theorem mapScope_of_not_hasScope {name : Text} {items : List Item}
    (f : List Item → List Item) (h : name ∉ (scopes items).map (·.1)) :
    mapScope name f items = items := by
  induction items with
  | nil => rfl
  | cons item rest ih =>
      cases item with
      | scope other inner =>
          simp only [scopes_scope_cons, List.map_cons, List.mem_cons, not_or] at h
          have hother : (other == name) = false := beq_eq_false_iff_ne.mpr (Ne.symm h.1)
          rw [mapScope, List.map_cons, ← mapScope, ih h.2]
          simp [hother]
      | _ =>
          rw [mapScope, List.map_cons, ← mapScope, ih h]

theorem scopes_mapScope (name : Text) (f : List Item → List Item) (items : List Item) :
    scopes (mapScope name f items) =
      (scopes items).map fun scope =>
        if scope.1 == name then (scope.1, f scope.2) else scope := by
  induction items with
  | nil => rfl
  | cons item rest ih =>
      rw [mapScope, List.map_cons, ← mapScope]
      cases item with
      | scope other inner =>
          cases hother : other == name with
          | true => simp only [hother, if_true, scopes_scope_cons, List.map_cons, ih]
          | false =>
              simp only [hother, Bool.false_eq_true, if_false, scopes_scope_cons, List.map_cons,
                ih]
      | _ => simp [ih]

theorem UniqueScopes.mapScope {items : List Item} (h : UniqueScopes items) {name : Text}
    {f : List Item → List Item} (hf : ∀ inner, UniqueScopes inner → UniqueScopes (f inner)) :
    UniqueScopes (mapScope name f items) := by
  refine ⟨?_, ?_⟩
  · have hnames : (scopes (Item.mapScope name f items)).map (·.1) = (scopes items).map (·.1) := by
      rw [scopes_mapScope, List.map_map]
      apply List.map_congr_left
      intro scope _
      simp only [Function.comp_apply]
      split <;> rfl
    rw [hnames]
    exact h.nodup
  · intro scope hscope
    rw [scopes_mapScope] at hscope
    obtain ⟨original, horiginal, rfl⟩ := List.mem_map.mp hscope
    split
    · exact hf _ (h.inner original horiginal)
    · exact h.inner original horiginal

/-- What is added to the one scope of a name is added to the whole. -/
theorem placed_mapScope {path : List Text} {name : Text} {f : List Item → List Item}
    {more : List (List Text × Binding)} {items : List Item}
    (hnodup : ((scopes items).map (·.1)).Nodup) (hname : name ∈ (scopes items).map (·.1))
    (hf : ∀ inner, (name, inner) ∈ scopes items →
      (placed (path ++ [name]) (f inner)).Perm (placed (path ++ [name]) inner ++ more)) :
    (placed path (mapScope name f items)).Perm (placed path items ++ more) := by
  induction items with
  | nil => cases hname
  | cons item rest ih =>
      rw [mapScope, List.map_cons, ← mapScope]
      cases item with
      | scope other inner =>
          simp only [scopes_scope_cons, List.map_cons, List.nodup_cons] at hnodup
          cases hother : other == name with
          | true =>
              obtain rfl := eq_of_beq hother
              rw [mapScope_of_not_hasScope f hnodup.1]
              simp only [hother, if_true, placed_scope_cons]
              refine ((hf inner List.mem_cons_self).append_right (placed path rest)).trans ?_
              rw [List.append_assoc, List.append_assoc]
              exact List.perm_append_comm.append_left _
          | false =>
              have hrest : name ∈ (scopes rest).map (·.1) := by
                have hne : name ≠ other := by
                  intro heq
                  simp [heq] at hother
                simpa [hne] using hname
              simp only [hother, Bool.false_eq_true, if_false, placed_scope_cons,
                List.append_assoc]
              have hmore := ih hnodup.2 hrest fun inner hinner =>
                hf inner (List.mem_cons_of_mem _ hinner)
              exact hmore.append_left _
      | use u => simpa using ih hnodup hname hf
      | stray written => simpa using ih hnodup hname hf
      | block bindings =>
          simp only [placed_block_cons, List.append_assoc]
          exact (ih hnodup hname hf).append_left _

/-- Items that grew out of others by what stands below further ones. -/
structure Grows (items more grown : List Item) : Prop where
  unique : UniqueScopes grown
  placed (path : List Text) :
    (placed path grown).Perm (placed path items ++ Item.placed path more)

theorem Grows.allBindings {items more grown : List Item} (h : Grows items more grown) :
    (allBindings grown).Perm (allBindings items ++ Item.allBindings more) := by
  have hplaced := (h.placed []).map (·.2)
  rwa [List.map_append, ← allBindings_eq, ← allBindings_eq, ← allBindings_eq] at hplaced

mutual

theorem grows_addTo {items : List Item} (h : UniqueScopes items) (item : Item)
    (hitem : UniqueScopes [item]) : Grows items [item] (addTo items item) := by
  cases item with
  | use u =>
      rw [addTo]
      exact ⟨h, by simp⟩
  | stray written =>
      rw [addTo]
      exact ⟨h, by simp⟩
  | block bindings =>
      rw [addTo]
      refine ⟨uniqueScopes_of_scopes_eq h (scopes_addBindings bindings items), fun path => ?_⟩
      simpa using placed_addBindings path bindings items
  | scope name inner =>
      have hinner : UniqueScopes inner := hitem.inner (name, inner) List.mem_cons_self
      rw [addTo]
      split
      · rename_i hhas
        have hjoin := fun existing (hexisting : UniqueScopes existing) =>
          grows_addAllTo hexisting inner (uniqueScopes_of_mem hinner)
        refine ⟨h.mapScope fun existing hexisting => (hjoin existing hexisting).unique, ?_⟩
        intro path
        rw [placed_scope_cons, placed_nil, List.append_nil]
        -- names are unique at this level, so exactly one scope takes the new items in
        apply placed_mapScope h.nodup (hasScope_iff.mp hhas)
        intro existing hexisting
        exact (hjoin existing (h.inner _ hexisting)).placed (path ++ [name])
      · rename_i hfresh
        rw [hasScope_iff] at hfresh
        have hperm := insertBeforeBlock_perm (.scope name inner) items
        constructor
        · apply uniqueScopes_perm _ hperm
          refine ⟨List.nodup_cons.mpr ⟨hfresh, h.nodup⟩, ?_⟩
          intro scope hscope
          rcases List.mem_cons.mp hscope with rfl | hscope
          · exact hinner
          · exact h.inner scope hscope
        · intro path
          refine (placed_perm path hperm).trans ?_
          rw [placed_cons]
          exact List.perm_append_comm

/-- Items join others without loss, one after another; scopes of one name join on the way. -/
theorem grows_addAllTo {items : List Item} (h : UniqueScopes items) (more : List Item)
    (hmore : ∀ item ∈ more, UniqueScopes [item]) : Grows items more (addAllTo items more) := by
  cases more with
  | nil =>
      rw [addAllTo]
      exact ⟨h, by simp⟩
  | cons item rest =>
      obtain ⟨hitem, hrest⟩ := List.forall_mem_cons.mp hmore
      have hfirst := grows_addTo h item hitem
      have hall := grows_addAllTo hfirst.unique rest hrest
      rw [addAllTo]
      refine ⟨hall.unique, fun path => (hall.placed path).trans ?_⟩
      rw [placed_cons path item rest, ← List.append_assoc]
      exact (hfirst.placed path).append_right _

end

end HostBindings.Rust.Item
