import HostBindings.Proofs.FreshNames
import HostBindings.Proofs.Traversal
import HostBindings.Proofs.TypeReplacement
import Mathlib.Data.List.Forall2
import Mathlib.Data.List.Induction

/-!
What the resolution of collisions does to one extern block. It drops nothing but repeated types,
keeps the order, and leaves every name of an owner once. The statements are an invariant over the
bindings taken in so far: one step keeps it, hence so does a whole block.
-/

namespace HostBindings.Rust.Collision

open Binding (hostTypeNames)

/-- The owner whose other members a function or static has to differ from; free functions and
statics share one name space. -/
def nameSpace (b : Binding) : Option Text :=
  match b.shape with
  | .function _ _ => b.attributes.owner
  | _ => none

/-- The claim of a function or static to its name. -/
def claimOf (b : Binding) : Claim := ⟨nameSpace b, b.name⟩

/-- Whether a binding is a function or a static. -/
def isMember (b : Binding) : Bool := !b.isHostType

/-- The claims of the functions and statics of a block, in order. -/
def claims (bindings : List Binding) : List Claim := (bindings.filter isMember).map claimOf

/-- Whether a binding is a host type of that name. -/
def isTypeNamed (name : Text) (b : Binding) : Bool := b.isHostType && b.name == name

/-- The bindings that stay, given those that come earlier in the block: all but a host type with an
earlier one of the same name. -/
def survivors (earlier : List Binding) : List Binding → List Binding
  | [] => []
  | b :: rest =>
      if b.isHostType && earlier.any (isTypeNamed b.name) then survivors (earlier ++ [b]) rest
      else b :: survivors (earlier ++ [b]) rest

/-- The host types of a name after the first one. -/
def repeats (block : List Binding) (name : Text) : List Binding :=
  (block.filter (isTypeNamed name)).tail

/-- A binding before it gets a free name: in a function the receiver's type is the owner. -/
def prepared (b : Binding) : Binding :=
  match b.shape with
  | .function _ _ => resolveSelf b
  | _ => b

/-- A binding with other bases. -/
def withBases (bases : List (List Text)) (b : Binding) : Binding :=
  { b with attributes := { b.attributes with bases := bases } }

/-- The bases of a type, followed by further ones that it does not have, each once. -/
def extendedBases (own more : List (List Text)) : List (List Text) :=
  own ++ (more.filter fun base => !own.contains base).eraseDups

/-- What a binding that stays becomes. A host type takes over the bases of its repetitions; a
function or static keeps its name or gets a numbered one. -/
def Becomes (block : List Binding) (before after : Binding) : Prop :=
  if before.isHostType then
    after = withBases
      (extendedBases before.attributes.bases
        ((repeats block before.name).flatMap (·.attributes.bases))) before
  else
    after = prepared before ∨
      ∃ k, after = rename (numbered (Identifier.bareName before.name) k) (prepared before)

theorem isHostType_rename (name : Text) (b : Binding) :
    (rename name b).isHostType = b.isHostType := rfl

theorem nameSpace_rename (name : Text) (b : Binding) : nameSpace (rename name b) = nameSpace b :=
  rfl

theorem isTypeNamed_withBases (name : Text) (bases : List (List Text)) (b : Binding) :
    isTypeNamed name (withBases bases b) = isTypeNamed name b := rfl

theorem resolveSelf_eq_mapTypes (b : Binding) :
    ∃ f : Bool → BindingType → BindingType, resolveSelf b = b.mapTypes f := by
  rw [resolveSelf]
  split
  · exact ⟨_, rfl⟩
  · exact ⟨fun _ ty => ty, by simp [Binding.mapTypes, BindingShape.mapTypes_id]⟩

theorem prepared_eq_mapTypes (b : Binding) :
    ∃ f : Bool → BindingType → BindingType, prepared b = b.mapTypes f := by
  rw [prepared]
  split
  · exact resolveSelf_eq_mapTypes b
  · exact ⟨fun _ ty => ty, by simp [Binding.mapTypes, BindingShape.mapTypes_id]⟩

@[simp] theorem name_prepared (b : Binding) : (prepared b).name = b.name := by
  obtain ⟨f, hf⟩ := prepared_eq_mapTypes b
  rw [hf, Binding.name_mapTypes]

@[simp] theorem isHostType_prepared (b : Binding) : (prepared b).isHostType = b.isHostType := by
  obtain ⟨f, hf⟩ := prepared_eq_mapTypes b
  rw [hf, Binding.isHostType_mapTypes]

theorem nameSpace_mapTypes (f : Bool → BindingType → BindingType) (b : Binding) :
    nameSpace (b.mapTypes f) = nameSpace b := by
  obtain ⟨name, shape, attributes, loc⟩ := b
  cases shape <;> rfl

@[simp] theorem nameSpace_prepared (b : Binding) : nameSpace (prepared b) = nameSpace b := by
  obtain ⟨f, hf⟩ := prepared_eq_mapTypes b
  rw [hf, nameSpace_mapTypes]

theorem prepared_prepared {b : Binding}
    (h : ∀ owner, b.attributes.owner = some owner → owner ≠ Text.ofString "Self") :
    prepared (prepared b) = prepared b := by
  obtain ⟨name, shape, attributes, loc⟩ := b
  cases shape with
  | hostType => rfl
  | static type => rfl
  | function params result =>
      cases howner : attributes.owner with
      | none => simp [prepared, resolveSelf, howner]
      | some owner =>
          have hself := fun ty => BindingType.substitute_substitute ty (h owner howner)
          simp [prepared, resolveSelf, howner, Binding.mapTypes, BindingShape.mapTypes, hself,
            Function.comp_def]

theorem prepared_rename (name : Text) (b : Binding) :
    prepared (rename name b) = rename name (prepared b) := by
  obtain ⟨own, shape, attributes, loc⟩ := b
  cases shape with
  | hostType => rfl
  | static type => rfl
  | function params result =>
      cases howner : attributes.owner with
      | none => simp [prepared, resolveSelf, rename, howner]
      | some owner =>
          simp [prepared, resolveSelf, rename, howner, Binding.mapTypes, BindingShape.mapTypes,
            isConstructor]

theorem survivors_append (earlier block more : List Binding) :
    survivors earlier (block ++ more) =
      survivors earlier block ++ survivors (earlier ++ block) more := by
  induction block generalizing earlier with
  | nil => simp [survivors]
  | cons b rest ih =>
      have hassoc : earlier ++ b :: rest = earlier ++ [b] ++ rest := by simp
      simp only [List.cons_append, survivors, ih, hassoc]
      split <;> simp

theorem survivors_snoc (block : List Binding) (b : Binding) :
    survivors [] (block ++ [b]) =
      survivors [] block ++
        if b.isHostType && block.any (isTypeNamed b.name) then [] else [b] := by
  rw [survivors_append]
  simp only [survivors, List.nil_append]

theorem repeats_snoc_of_any {block : List Binding} {b : Binding} {name : Text}
    (hany : block.any (isTypeNamed name) = true) (hb : isTypeNamed name b = true) :
    repeats (block ++ [b]) name = repeats block name ++ [b] := by
  have hne : block.filter (isTypeNamed name) ≠ [] := by
    obtain ⟨first, hfirst, hnamed⟩ := List.any_eq_true.mp hany
    exact List.ne_nil_of_mem (List.mem_filter.mpr ⟨hfirst, hnamed⟩)
  rw [repeats, List.filter_append, List.tail_append_of_ne_nil hne, repeats]
  simp [hb]

theorem repeats_snoc_of_not {block : List Binding} {b : Binding} {name : Text}
    (h : isTypeNamed name b = true → block.any (isTypeNamed name) = false) :
    repeats (block ++ [b]) name = repeats block name := by
  cases hb : isTypeNamed name b with
  | false => simp [repeats, List.filter_append, hb]
  | true =>
      have hnil : block.filter (isTypeNamed name) = [] := by
        simpa [List.filter_eq_nil_iff] using h hb
      simp [repeats, List.filter_append, hb, hnil]

theorem mergeBases_eq (bases more : List (List Text)) :
    mergeBases bases more = extendedBases bases more := by
  induction more generalizing bases with
  | nil => simp [mergeBases, extendedBases]
  | cons base rest ih =>
      rw [mergeBases, List.foldl_cons, ← mergeBases, ih, extendedBases, extendedBases]
      by_cases hbase : base ∈ bases
      · simp [hbase]
      · simp only [List.contains_iff_mem, hbase, if_false, List.append_assoc,
          List.singleton_append, List.append_cancel_left_eq]
        rw [List.filter_cons_of_pos (by simpa using hbase), List.eraseDups_cons,
          List.filter_filter]
        congr 2
        apply List.filter_congr
        intro other _
        simp [List.mem_append, beq_eq_decide, Bool.and_comm]

theorem mem_extendedBases {own more : List (List Text)} {base : List Text} :
    base ∈ extendedBases own more ↔ base ∈ own ∨ base ∈ more := by
  rw [extendedBases, List.mem_append, List.mem_eraseDups, List.mem_filter]
  by_cases hown : base ∈ own <;> simp [hown]

theorem mergeBases_mergeBases (bases more further : List (List Text)) :
    mergeBases (mergeBases bases more) further = mergeBases bases (more ++ further) := by
  rw [mergeBases, mergeBases, mergeBases, List.foldl_append]

theorem step_of_isMember {b : Binding} (h : isMember b = true) (s : State) :
    step s b = keep s (nameSpace b) (prepared b) := by
  obtain ⟨name, shape, attributes, loc⟩ := b
  cases shape with
  | hostType => cases h
  | function params result => rfl
  | static type => rfl

theorem step_of_fresh_type {b : Binding} {s : State} (h : b.isHostType = true)
    (hfresh : s.kept.any (isTypeNamed b.name) = false) :
    step s b = { s with kept := s.kept ++ [b] } := by
  obtain ⟨name, shape, attributes, loc⟩ := b
  cases shape with
  | hostType => exact if_neg (by simpa [isTypeNamed] using hfresh)
  | function params result => cases h
  | static type => cases h

theorem step_of_repeated_type {b : Binding} {s : State} (h : b.isHostType = true)
    (hrepeated : s.kept.any (isTypeNamed b.name) = true) :
    step s b = { s with kept := foldType b s.kept } := by
  obtain ⟨name, shape, attributes, loc⟩ := b
  cases shape with
  | hostType => exact if_pos (by simpa [isTypeNamed] using hrepeated)
  | function params result => cases h
  | static type => cases h

/-- A binding settles under its own name or under a numbered one, and its owner has not given that
name away. -/
theorem settle_spec (taken : List Claim) (owner : Option Text) (b : Binding) :
    (⟨owner, (settle taken owner b).name⟩ : Claim) ∉ taken ∧
      (settle taken owner b = b ∨
        ∃ k, settle taken owner b = rename (numbered (Identifier.bareName b.name) k) b) := by
  rw [settle]
  split
  · obtain ⟨k, _, _, heq, hfree, _⟩ := freshName_spec taken owner (Identifier.bareName b.name)
    rw [heq]
    exact ⟨hfree, Or.inr ⟨k, rfl⟩⟩
  · rename_i hfree
    exact ⟨by simpa using hfree, Or.inl rfl⟩

/-- What holds after some bindings of a block were taken in. -/
structure Invariant (taken : List Binding) (s : State) : Prop where
  taken_eq : s.taken = (claims s.kept).reverse
  claims_nodup : (claims s.kept).Nodup
  types_nodup : (hostTypeNames s.kept).Nodup
  knows_types : ∀ name, s.kept.any (isTypeNamed name) = taken.any (isTypeNamed name)
  becomes : List.Forall₂ (Becomes taken) (survivors [] taken) s.kept

theorem mem_hostTypeNames {name : Text} {bindings : List Binding} :
    name ∈ hostTypeNames bindings ↔ bindings.any (isTypeNamed name) = true := by
  simp [hostTypeNames, isTypeNamed, and_assoc]

theorem becomes_snoc_of_not {block : List Binding} {b before after : Binding}
    (h : ∀ name, isTypeNamed name b = true → block.any (isTypeNamed name) = false)
    (hbecomes : Becomes block before after) : Becomes (block ++ [b]) before after := by
  rw [Becomes] at hbecomes ⊢
  rwa [repeats_snoc_of_not (h before.name)]

theorem invariant_nil : Invariant [] {} :=
  ⟨rfl, List.nodup_nil, List.nodup_nil, fun _ => rfl, List.Forall₂.nil⟩

theorem Invariant.step_member {block : List Binding} {s : State} (h : Invariant block s)
    {b : Binding} (hb : isMember b = true) : Invariant (block ++ [b]) (step s b) := by
  have hhost : b.isHostType = false := by simpa [isMember] using hb
  have hother : ∀ name, isTypeNamed name b = false := fun name => by simp [isTypeNamed, hhost]
  rw [step_of_isMember hb, keep]
  obtain ⟨hfree, hsettled⟩ := settle_spec s.taken (nameSpace b) (prepared b)
  generalize settle s.taken (nameSpace b) (prepared b) = settled at hfree hsettled ⊢
  have hshape : settled.isHostType = false ∧ nameSpace settled = nameSpace b := by
    rcases hsettled with rfl | ⟨k, rfl⟩
    · simp [hhost]
    · simp [isHostType_rename, nameSpace_rename, hhost]
  have hclaims : claims (s.kept ++ [settled]) =
      claims s.kept ++ [⟨nameSpace b, settled.name⟩] := by
    simp [claims, isMember, hshape.1, claimOf, hshape.2]
  constructor
  · simp [hclaims, h.taken_eq]
  · rw [hclaims]
    refine List.nodup_append.mpr ⟨h.claims_nodup, List.nodup_singleton _, ?_⟩
    intro claim hclaim other hother heq
    rw [List.mem_singleton] at hother
    subst hother heq
    -- the settled name was free, and all claims of the kept bindings are taken
    apply hfree
    simpa [h.taken_eq] using hclaim
  · have hnames : hostTypeNames (s.kept ++ [settled]) = hostTypeNames s.kept := by
      simp [hostTypeNames, hshape.1]
    rw [hnames]
    exact h.types_nodup
  · intro name
    simp [isTypeNamed, hshape.1, hhost, ← h.knows_types name]
  · rw [survivors_snoc]
    simp only [hhost, Bool.false_and, Bool.false_eq_true, if_false]
    have hold : List.Forall₂ (Becomes (block ++ [b])) (survivors [] block) s.kept :=
      h.becomes.imp fun x y hxy =>
        becomes_snoc_of_not (fun name hname => absurd hname (by simp [hother name])) hxy
    refine List.rel_append hold (List.Forall₂.cons ?_ List.Forall₂.nil)
    rw [Becomes, if_neg (by simp [hhost])]
    simpa using hsettled

theorem Invariant.step_fresh_type {block : List Binding} {s : State} (h : Invariant block s)
    {b : Binding} (hb : b.isHostType = true)
    (hfresh : block.any (isTypeNamed b.name) = false) :
    Invariant (block ++ [b]) (step s b) := by
  have hunknown : s.kept.any (isTypeNamed b.name) = false := by rw [h.knows_types, hfresh]
  rw [Collision.step_of_fresh_type hb hunknown]
  have hclaims : claims (s.kept ++ [b]) = claims s.kept := by simp [claims, isMember, hb]
  constructor
  · rw [hclaims]
    exact h.taken_eq
  · rw [hclaims]
    exact h.claims_nodup
  · have hnames : hostTypeNames (s.kept ++ [b]) = hostTypeNames s.kept ++ [b.name] := by
      simp [hostTypeNames, hb]
    rw [hnames]
    refine List.nodup_append.mpr ⟨h.types_nodup, List.nodup_singleton _, ?_⟩
    intro name hname other hother heq
    rw [List.mem_singleton] at hother
    subst hother heq
    rw [mem_hostTypeNames, hunknown] at hname
    cases hname
  · intro name
    simp [h.knows_types name]
  · rw [survivors_snoc]
    simp only [hb, hfresh, Bool.and_false, Bool.false_eq_true, if_false]
    have hnot : ∀ name, isTypeNamed name b = true → block.any (isTypeNamed name) = false := by
      intro name hname
      have heq : b.name = name := by simpa [isTypeNamed, hb] using hname
      rw [← heq]
      exact hfresh
    have hold : List.Forall₂ (Becomes (block ++ [b])) (survivors [] block) s.kept :=
      h.becomes.imp fun x y hxy => becomes_snoc_of_not hnot hxy
    refine List.rel_append hold (List.Forall₂.cons ?_ List.Forall₂.nil)
    have hnone : repeats block b.name = [] := by
      have hnil : block.filter (isTypeNamed b.name) = [] := by
        simpa [List.filter_eq_nil_iff] using hfresh
      simp [repeats, hnil]
    rw [Becomes, if_pos hb, repeats_snoc_of_not (hnot b.name), hnone, ← mergeBases_eq]
    rfl

/-- A kept binding after a repeated type: the type of that name takes over its bases. -/
def foldInto (repeated b : Binding) : Binding :=
  if isTypeNamed repeated.name b then
    withBases (mergeBases b.attributes.bases repeated.attributes.bases) b
  else b

theorem foldType_eq_map (repeated : Binding) (kept : List Binding) :
    foldType repeated kept = kept.map (foldInto repeated) := rfl

theorem name_foldInto (repeated b : Binding) : (foldInto repeated b).name = b.name := by
  rw [foldInto]
  split <;> rfl

theorem isHostType_foldInto (repeated b : Binding) :
    (foldInto repeated b).isHostType = b.isHostType := by
  rw [foldInto]
  split <;> rfl

theorem isMember_foldInto (repeated b : Binding) :
    isMember (foldInto repeated b) = isMember b := by
  simp [isMember, isHostType_foldInto]

theorem claimOf_foldInto (repeated b : Binding) : claimOf (foldInto repeated b) = claimOf b := by
  rw [foldInto]
  split <;> rfl

theorem Becomes.foldInto {block : List Binding} {b before after : Binding}
    (hb : b.isHostType = true) (hany : block.any (isTypeNamed b.name) = true)
    (h : Becomes block before after) : Becomes (block ++ [b]) before (foldInto b after) := by
  rw [Becomes] at h ⊢
  cases hbefore : before.isHostType with
  | true =>
      simp only [hbefore, if_true] at h ⊢
      subst h
      by_cases hname : before.name = b.name
      · have hnamed : isTypeNamed before.name b = true := by simp [isTypeNamed, hb, hname]
        have hsame : isTypeNamed b.name before = true := by simp [isTypeNamed, hbefore, hname]
        rw [repeats_snoc_of_any (by rwa [hname]) hnamed, Collision.foldInto,
          isTypeNamed_withBases, if_pos hsame, List.flatMap_append, ← mergeBases_eq,
          ← mergeBases_eq, ← mergeBases_mergeBases, List.flatMap_singleton]
        rfl
      · have hother : isTypeNamed before.name b = false := by
          simp [isTypeNamed, Ne.symm hname]
        have hafter : ¬ isTypeNamed b.name before = true := by simp [isTypeNamed, hname]
        rw [repeats_snoc_of_not (by simp [hother]), Collision.foldInto, isTypeNamed_withBases,
          if_neg hafter]
  | false =>
      simp only [hbefore, Bool.false_eq_true, if_false] at h ⊢
      have hafter : after.isHostType = false := by
        rcases h with rfl | ⟨k, rfl⟩
        · simp [hbefore]
        · simp [isHostType_rename, hbefore]
      rw [Collision.foldInto, if_neg (by simp [isTypeNamed, hafter])]
      exact h

theorem Invariant.step_repeated_type {block : List Binding} {s : State} (h : Invariant block s)
    {b : Binding} (hb : b.isHostType = true)
    (hrepeated : block.any (isTypeNamed b.name) = true) :
    Invariant (block ++ [b]) (step s b) := by
  have hknown : s.kept.any (isTypeNamed b.name) = true := by rw [h.knows_types, hrepeated]
  rw [step_of_repeated_type hb hknown, foldType_eq_map]
  have hclaims : claims (s.kept.map (foldInto b)) = claims s.kept := by
    simp [claims, List.filter_map, Function.comp_def, isMember_foldInto, claimOf_foldInto]
  have hnames : hostTypeNames (s.kept.map (foldInto b)) = hostTypeNames s.kept := by
    simp [hostTypeNames, List.filter_map, Function.comp_def, isHostType_foldInto, name_foldInto]
  constructor
  · rw [hclaims]
    exact h.taken_eq
  · rw [hclaims]
    exact h.claims_nodup
  · rw [hnames]
    exact h.types_nodup
  · intro name
    have hany : (s.kept.map (foldInto b)).any (isTypeNamed name) =
        s.kept.any (isTypeNamed name) := by
      rw [Bool.eq_iff_iff, ← mem_hostTypeNames, ← mem_hostTypeNames, hnames]
    rw [hany, h.knows_types name, List.any_append]
    cases hnamed : isTypeNamed name b with
    | false => simp [hnamed]
    | true =>
        have heq : b.name = name := by simpa [isTypeNamed, hb] using hnamed
        rw [← heq, hrepeated, Bool.true_or]
  · rw [survivors_snoc]
    simp only [hb, hrepeated, Bool.and_self, if_true, List.append_nil]
    rw [List.forall₂_map_right_iff]
    exact h.becomes.imp fun x y hxy => hxy.foldInto hb hrepeated

/-- Taking in one more binding keeps the invariant. -/
theorem Invariant.step {block : List Binding} {s : State} (h : Invariant block s) (b : Binding) :
    Invariant (block ++ [b]) (step s b) := by
  cases hb : b.isHostType with
  | false => exact h.step_member (by simp [isMember, hb])
  | true =>
      cases hany : block.any (isTypeNamed b.name) with
      | false => exact h.step_fresh_type hb hany
      | true => exact h.step_repeated_type hb hany

/-- The invariant holds of a whole block. -/
theorem invariant_foldl_step (block : List Binding) :
    Invariant block (block.foldl step {}) := by
  induction block using List.reverseRecOn with
  | nil => exact invariant_nil
  | append_singleton block b ih =>
      rw [List.foldl_append]
      exact ih.step b

theorem survivors_sublist (earlier block : List Binding) :
    (survivors earlier block).Sublist block := by
  induction block generalizing earlier with
  | nil => exact List.Sublist.slnil
  | cons b rest ih =>
      rw [survivors]
      split
      · exact (ih _).cons b
      · exact (ih _).cons_cons b

theorem filter_isMember_survivors (earlier block : List Binding) :
    (survivors earlier block).filter isMember = block.filter isMember := by
  induction block generalizing earlier with
  | nil => rfl
  | cons b rest ih =>
      rw [survivors]
      split
      · rename_i hdropped
        have hhost : b.isHostType = true := (Bool.and_eq_true_iff.mp hdropped).1
        rw [ih, List.filter_cons_of_neg (by simp [isMember, hhost])]
      · rw [List.filter_cons, List.filter_cons, ih]

theorem Becomes.isMember_eq {block : List Binding} {before after : Binding}
    (h : Becomes block before after) : isMember after = isMember before := by
  rw [Becomes] at h
  split at h
  · rw [h]
    rfl
  · rcases h with rfl | ⟨k, rfl⟩
    · simp [isMember]
    · simp [isMember, isHostType_rename]

theorem Becomes.isRust {block : List Binding} {before after : Binding}
    (h : Becomes block before after) (hrust : Identifier.IsRust before.name) :
    Identifier.IsRust after.name := by
  rw [Becomes] at h
  split at h
  · rw [h]
    exact hrust
  · rcases h with rfl | ⟨k, rfl⟩
    · rwa [name_prepared]
    · exact Or.inl ⟨isWord_numbered (Identifier.isWord_bareName hrust) k,
        numbered_not_mem_keywords _ k⟩

theorem exists_of_mem_right {α β : Type} {R : α → β → Prop} {as : List α} {bs : List β}
    (h : List.Forall₂ R as bs) {b : β} (hb : b ∈ bs) : ∃ a ∈ as, R a b := by
  induction h with
  | nil => cases hb
  | cons hab _ ih =>
      rcases List.mem_cons.mp hb with rfl | hrest
      · exact ⟨_, List.mem_cons_self, hab⟩
      · obtain ⟨a, ha, hr⟩ := ih hrest
        exact ⟨a, List.mem_cons_of_mem _ ha, hr⟩

/-- A block after its collisions were resolved: types differ by name, the functions and statics of
each owner differ by name also without raw marks, nothing but repeated types is gone, and what stays
has kept its order. -/
structure Resolved (before after : List Binding) : Prop where
  types_distinct : (hostTypeNames after).Nodup
  names_distinct : ∀ owner,
    ((after.filter fun b => isMember b && nameSpace b == owner).map fun b =>
      Identifier.bareName b.name).Nodup
  becomes : List.Forall₂ (Becomes before) (survivors [] before) after
  members_survive :
    List.Forall₂ (Becomes before) (before.filter isMember) (after.filter isMember)

/-- Every function and static of a block stays. -/
theorem members_survive (block : List Binding) :
    List.Forall₂ (Becomes block) (block.filter isMember) ((resolve block).filter isMember) := by
  rw [← filter_isMember_survivors [] block]
  refine List.rel_filter ?_ (invariant_foldl_step block).becomes
  intro before after hxy
  simp only [hxy.isMember_eq]

theorem bareNames_nodup_of_claims {bindings : List Binding} (h : (claims bindings).Nodup)
    (hrust : ∀ b ∈ bindings, isMember b = true → Identifier.IsRust b.name) (owner : Option Text) :
    ((bindings.filter fun b => isMember b && nameSpace b == owner).map fun b =>
      Identifier.bareName b.name).Nodup := by
  let owned := bindings.filter fun b => isMember b && nameSpace b == owner
  have howned : (owned.map claimOf).Nodup := by
    apply List.Nodup.sublist _ h
    apply List.Sublist.map
    rw [show owned = (bindings.filter isMember).filter (nameSpace · == owner) by
      simp [owned, List.filter_filter, Bool.and_comm]]
    exact List.filter_sublist
  have hbare : ((owned.map claimOf).map fun claim => Identifier.bareName claim.name).Nodup := by
    apply List.Nodup.map_on _ howned
    intro x hx y hy hxy
    obtain ⟨a, ha, rfl⟩ := List.mem_map.mp hx
    obtain ⟨b, hb, rfl⟩ := List.mem_map.mp hy
    simp only [owned, List.mem_filter, Bool.and_eq_true, beq_iff_eq] at ha hb
    have hname : a.name = b.name :=
      Identifier.bareName_inj (hrust a ha.1 ha.2.1) (hrust b hb.1 hb.2.1) hxy
    simp [claimOf, hname, ha.2.2, hb.2.2]
  simpa [Function.comp_def, claimOf] using hbare

theorem resolved_resolve {block : List Binding}
    (hrust : ∀ b ∈ block, isMember b = true → Identifier.IsRust b.name) :
    Resolved block (resolve block) := by
  have hinvariant := invariant_foldl_step block
  have hbecomes : List.Forall₂ (Becomes block) (survivors [] block) (resolve block) :=
    hinvariant.becomes
  refine ⟨hinvariant.types_nodup, ?_, hbecomes, members_survive block⟩
  intro owner
  apply bareNames_nodup_of_claims hinvariant.claims_nodup
  intro after hafter hmember
  obtain ⟨before, hbefore, hxy⟩ := exists_of_mem_right hbecomes hafter
  rw [hxy.isMember_eq] at hmember
  exact hxy.isRust (hrust before ((survivors_sublist [] block).subset hbefore) hmember)

theorem mem_hostTypeNames_resolve {name : Text} {block : List Binding} :
    name ∈ hostTypeNames (resolve block) ↔ name ∈ hostTypeNames block := by
  rw [mem_hostTypeNames, mem_hostTypeNames, resolve, (invariant_foldl_step block).knows_types]

/-- The bases of the host types of a block. -/
def typeBases (bindings : List Binding) : List (List Text) :=
  (bindings.filter Binding.isHostType).flatMap (·.attributes.bases)

theorem mem_typeBases {base : List Text} {bindings : List Binding} :
    base ∈ typeBases bindings ↔
      ∃ b ∈ bindings, b.isHostType = true ∧ base ∈ b.attributes.bases := by
  simp [typeBases, and_assoc]

theorem typeBases_snoc_of_isMember {bindings : List Binding} {b : Binding}
    (h : b.isHostType = false) : typeBases (bindings ++ [b]) = typeBases bindings := by
  simp [typeBases, h]

theorem typeBases_snoc_of_isHostType {bindings : List Binding} {b : Binding}
    (h : b.isHostType = true) :
    typeBases (bindings ++ [b]) = typeBases bindings ++ b.attributes.bases := by
  simp [typeBases, h]

theorem mem_typeBases_foldType {base : List Text} {repeated : Binding} {kept : List Binding}
    (hknown : kept.any (isTypeNamed repeated.name) = true) :
    base ∈ typeBases (foldType repeated kept) ↔
      base ∈ typeBases kept ∨ base ∈ repeated.attributes.bases := by
  rw [foldType_eq_map, mem_typeBases, mem_typeBases]
  constructor
  · rintro ⟨_, hb, hhost, hbase⟩
    obtain ⟨b, hkept, rfl⟩ := List.mem_map.mp hb
    rw [isHostType_foldInto] at hhost
    rw [foldInto] at hbase
    split at hbase
    · rw [mergeBases_eq] at hbase
      exact (mem_extendedBases.mp hbase).imp_left fun hown => ⟨b, hkept, hhost, hown⟩
    · exact Or.inl ⟨b, hkept, hhost, hbase⟩
  · have hgrown : ∀ b : Binding, base ∈ b.attributes.bases →
        base ∈ (foldInto repeated b).attributes.bases := by
      intro b hbase
      rw [foldInto]
      split
      · exact mergeBases_eq _ _ ▸ mem_extendedBases.mpr (Or.inl hbase)
      · exact hbase
    rintro (⟨b, hkept, hhost, hbase⟩ | hbase)
    · exact ⟨_, List.mem_map_of_mem hkept, (isHostType_foldInto repeated b).trans hhost,
        hgrown b hbase⟩
    · obtain ⟨b, hkept, hnamed⟩ := List.any_eq_true.mp hknown
      refine ⟨_, List.mem_map_of_mem hkept, ?_, ?_⟩
      · exact (isHostType_foldInto repeated b).trans (Bool.and_eq_true_iff.mp hnamed).1
      · rw [foldInto, if_pos hnamed]
        exact mergeBases_eq _ _ ▸ mem_extendedBases.mpr (Or.inr hbase)

/-- The types that stay have the bases of all of their name. -/
theorem mem_typeBases_resolve {base : List Text} {block : List Binding} :
    base ∈ typeBases (resolve block) ↔ base ∈ typeBases block := by
  rw [resolve]
  induction block using List.reverseRecOn with
  | nil => rfl
  | append_singleton block b ih =>
      have hknows := (invariant_foldl_step block).knows_types b.name
      rw [List.foldl_append, List.foldl_cons, List.foldl_nil]
      generalize block.foldl step {} = s at ih hknows ⊢
      cases hb : b.isHostType with
      | false =>
          rw [step_of_isMember (by simp [isMember, hb]), keep, typeBases_snoc_of_isMember hb,
            typeBases_snoc_of_isMember, ih]
          rcases (settle_spec s.taken (nameSpace b) (prepared b)).2 with heq | ⟨k, heq⟩
          · rw [heq, isHostType_prepared, hb]
          · rw [heq, isHostType_rename, isHostType_prepared, hb]
      | true =>
          rw [typeBases_snoc_of_isHostType hb, List.mem_append, ← ih]
          cases hknown : s.kept.any (isTypeNamed b.name) with
          | true =>
              rw [step_of_repeated_type hb hknown]
              exact mem_typeBases_foldType hknown
          | false =>
              rw [step_of_fresh_type hb hknown, typeBases_snoc_of_isHostType hb, List.mem_append]

theorem taken_subset_step (s : State) (b : Binding) : s.taken ⊆ (step s b).taken := by
  intro claim hclaim
  rw [step]
  split
  · split <;> exact hclaim
  · exact List.mem_cons_of_mem _ hclaim
  · exact List.mem_cons_of_mem _ hclaim

theorem claimOf_mem_step {b : Binding} (h : isMember b = true) (s : State) :
    claimOf b ∈ (step s b).taken := by
  rw [step_of_isMember h, keep, settle, name_prepared]
  split
  · rename_i htaken
    exact List.mem_cons_of_mem _ (List.contains_iff_mem.mp htaken)
  · rw [name_prepared]
    exact List.mem_cons_self

theorem claimOf_mem_claims_resolve {block : List Binding} {b : Binding} (hb : b ∈ block)
    (h : isMember b = true) : claimOf b ∈ claims (resolve block) := by
  rw [resolve, ← List.mem_reverse, ← (invariant_foldl_step block).taken_eq]
  induction block using List.reverseRecOn with
  | nil => cases hb
  | append_singleton block last ih =>
      rw [List.foldl_append]
      rcases List.mem_append.mp hb with hbefore | hlast
      · exact taken_subset_step _ last (ih hbefore)
      · rw [List.mem_singleton.mp hlast] at h ⊢
        exact claimOf_mem_step h _

theorem claims_append (block more : List Binding) :
    claims (block ++ more) = claims block ++ claims more := by
  simp [claims]

theorem hostTypeNames_append (block more : List Binding) :
    hostTypeNames (block ++ more) = hostTypeNames block ++ hostTypeNames more := by
  simp [hostTypeNames]

theorem step_of_no_collision {block : List Binding} {b : Binding}
    (htypes : (hostTypeNames (block ++ [b])).Nodup) (hclaims : (claims (block ++ [b])).Nodup)
    (hprepared : prepared b = b) :
    step ⟨(claims block).reverse, block⟩ b = ⟨(claims (block ++ [b])).reverse, block ++ [b]⟩ := by
  cases hb : b.isHostType with
  | true =>
      have hfresh : block.any (isTypeNamed b.name) = false := by
        by_contra hany
        rw [Bool.not_eq_false, ← mem_hostTypeNames] at hany
        rw [hostTypeNames_append] at htypes
        exact (List.nodup_append.mp htypes).2.2 b.name hany b.name
          (by simp [hostTypeNames, hb]) rfl
      rw [step_of_fresh_type hb hfresh]
      simp [claims, isMember, hb]
  | false =>
      have hmember : isMember b = true := by simp [isMember, hb]
      have hclaim : claims (block ++ [b]) = claims block ++ [claimOf b] := by
        simp [claims, hmember]
      have hfree : claimOf b ∉ (claims block).reverse := by
        rw [hclaim] at hclaims
        intro htaken
        exact (List.nodup_append.mp hclaims).2.2 (claimOf b) (List.mem_reverse.mp htaken)
          (claimOf b) (List.mem_singleton_self _) rfl
      have hsettle : settle (claims block).reverse (nameSpace b) b = b :=
        if_neg (by simpa [claimOf] using hfree)
      rw [step_of_isMember hmember, hprepared, keep, hsettle, hclaim, List.reverse_append]
      rfl

theorem resolve_eq_self {block : List Binding} (htypes : (hostTypeNames block).Nodup)
    (hclaims : (claims block).Nodup) (hprepared : ∀ b ∈ block, prepared b = b) :
    resolve block = block := by
  have hstate : block.foldl step {} = ⟨(claims block).reverse, block⟩ := by
    induction block using List.reverseRecOn with
    | nil => rfl
    | append_singleton block b ih =>
        have htypesBefore := htypes
        have hclaimsBefore := hclaims
        rw [hostTypeNames_append] at htypesBefore
        rw [claims_append] at hclaimsBefore
        have hbefore := ih (List.nodup_append.mp htypesBefore).1
          (List.nodup_append.mp hclaimsBefore).1 fun c hc => hprepared c (by simp [hc])
        rw [List.foldl_append, hbefore]
        exact step_of_no_collision htypes hclaims (hprepared b (by simp))
  rw [resolve, hstate]

theorem Becomes.prepared_eq {block : List Binding} {before after : Binding}
    (h : Becomes block before after)
    (howner : ∀ owner, before.attributes.owner = some owner → owner ≠ Text.ofString "Self") :
    prepared after = after := by
  rw [Becomes] at h
  split at h
  · rename_i hhost
    rw [h]
    obtain ⟨name, shape, attributes, loc⟩ := before
    cases shape with
    | hostType => rfl
    | function params result => cases hhost
    | static type => cases hhost
  · rcases h with rfl | ⟨k, rfl⟩
    · exact prepared_prepared howner
    · rw [prepared_rename, prepared_prepared howner]

theorem resolve_resolve {block : List Binding}
    (howner : ∀ b ∈ block, ∀ owner, b.attributes.owner = some owner →
      owner ≠ Text.ofString "Self") :
    resolve (resolve block) = resolve block := by
  have hinvariant := invariant_foldl_step block
  apply resolve_eq_self hinvariant.types_nodup hinvariant.claims_nodup
  intro after hafter
  obtain ⟨before, hbefore, hxy⟩ := exists_of_mem_right hinvariant.becomes hafter
  exact hxy.prepared_eq (howner before ((survivors_sublist [] block).subset hbefore))

end HostBindings.Rust.Collision
