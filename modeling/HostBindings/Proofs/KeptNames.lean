import HostBindings.Proofs.CollisionFreedom

/-!
Who keeps a name. The resolution goes through a block once. The first function or static of a name
finds the name free unless an earlier one of the same owner was given it as a numbered name; nothing
else takes a name away, and what comes later changes no function or static that is settled.
-/

namespace HostBindings.Rust.Collision

/-- The names of an owner's functions and statics, in order. -/
def memberNames (owner : Option Text) (bindings : List Binding) : List Text :=
  (bindings.filter fun b => isMember b && nameSpace b == owner).map (·.name)

/-- Resolving a block gives one of its functions or statics a numbered name, in place of its own,
and this is the name of `b`, which has the same owner. -/
def GivesAway (block : List Binding) (b : Binding) : Prop :=
  ∃ c c', (c, c') ∈ (block.filter isMember).zip ((resolve block).filter isMember) ∧
    nameSpace c = nameSpace b ∧ c'.name = b.name ∧
    ∃ k, b.name = numbered (Identifier.bareName c.name) k

theorem claimOf_mem_claims {claim : Claim} {bindings : List Binding} :
    claim ∈ claims bindings ↔ claim.name ∈ memberNames claim.owner bindings := by
  obtain ⟨owner, name⟩ := claim
  simp [claims, memberNames, claimOf, and_assoc]

theorem mem_taken_iff (block : List Binding) (owner : Option Text) (name : Text) :
    (⟨owner, name⟩ : Claim) ∈ (block.foldl step {}).taken ↔
      name ∈ memberNames owner (resolve block) := by
  rw [(invariant_foldl_step block).taken_eq, List.mem_reverse, claimOf_mem_claims]
  rfl

theorem foldInto_of_isMember (repeated : Binding) {b : Binding} (hb : isMember b = true) :
    foldInto repeated b = b := by
  rw [isMember, Bool.not_eq_true'] at hb
  rw [foldInto, if_neg (by simp [isTypeNamed, hb])]

theorem filter_isMember_foldType (repeated : Binding) (kept : List Binding) :
    (foldType repeated kept).filter isMember = kept.filter isMember := by
  have hmember : isMember ∘ foldInto repeated = isMember := by
    funext b
    exact isMember_foldInto repeated b
  rw [foldType_eq_map, List.filter_map, hmember]
  calc
    (kept.filter isMember).map (foldInto repeated) = (kept.filter isMember).map id :=
      List.map_congr_left fun b hb => foldInto_of_isMember repeated (List.mem_filter.mp hb).2
    _ = kept.filter isMember := List.map_id _

theorem members_prefix_step (s : State) (b : Binding) :
    s.kept.filter isMember <+: (step s b).kept.filter isMember := by
  cases hb : b.isHostType with
  | false =>
      rw [step_of_isMember (by simp [isMember, hb]), keep, List.filter_append]
      exact List.prefix_append _ _
  | true =>
      cases hknown : s.kept.any (isTypeNamed b.name) with
      | true =>
          refine ⟨[], ?_⟩
          rw [List.append_nil, step_of_repeated_type hb hknown, filter_isMember_foldType]
      | false =>
          rw [step_of_fresh_type hb hknown, List.filter_append]
          exact List.prefix_append _ _

theorem members_prefix_foldl (s : State) (more : List Binding) :
    s.kept.filter isMember <+: (more.foldl step s).kept.filter isMember := by
  induction more generalizing s with
  | nil => exact List.prefix_rfl
  | cons b rest ih => exact (members_prefix_step s b).trans (ih (step s b))

theorem isMember_settle (taken : List Claim) (owner : Option Text) (b : Binding) :
    isMember (settle taken owner b) = isMember b := by
  rcases (settle_spec taken owner b).2 with heq | ⟨k, heq⟩
  · rw [heq]
  · rw [heq, isMember, isHostType_rename, isMember]

/-- A function or static settles after those before it, and what comes later changes neither it nor
them. -/
theorem members_resolve_append (before after : List Binding) {b : Binding}
    (hb : isMember b = true) :
    (resolve before).filter isMember ++
        [settle (before.foldl step {}).taken (nameSpace b) (prepared b)] <+:
      (resolve (before ++ b :: after)).filter isMember := by
  have hsettled : isMember (settle (before.foldl step {}).taken (nameSpace b) (prepared b)) =
      true := by
    rw [isMember_settle, isMember, isHostType_prepared, ← isMember, hb]
  have hlater := members_prefix_foldl (step (before.foldl step {}) b) after
  rw [step_of_isMember hb, keep, List.filter_append, List.filter_cons_of_pos hsettled,
    List.filter_nil] at hlater
  rwa [resolve, resolve, List.foldl_append, List.foldl_cons, step_of_isMember hb, keep]

theorem name_settle_eq_iff (taken : List Claim) (owner : Option Text) (b : Binding) :
    (settle taken owner b).name = b.name ↔ (⟨owner, b.name⟩ : Claim) ∉ taken := by
  constructor
  · intro hsame
    rw [← hsame]
    exact (settle_spec taken owner b).1
  · intro hfree
    rw [settle, if_neg (by simpa using hfree)]

theorem Becomes.nameSpace_eq {block : List Binding} {before after : Binding}
    (h : Becomes block before after) : nameSpace after = nameSpace before := by
  rw [Becomes] at h
  split at h
  · rw [h]
    rfl
  · rcases h with rfl | ⟨k, rfl⟩
    · rw [nameSpace_prepared]
    · rw [nameSpace_rename, nameSpace_prepared]

theorem forall₂_members_resolve (block : List Binding) :
    List.Forall₂
      (fun c c' => (c, c') ∈ (block.filter isMember).zip ((resolve block).filter isMember) ∧
        Becomes block c c')
      (block.filter isMember) ((resolve block).filter isMember) := by
  obtain ⟨hlength, hbecomes⟩ := List.forall₂_iff_zip.mp (members_survive block)
  exact List.forall₂_iff_zip.mpr ⟨hlength, fun hzip => ⟨hzip, hbecomes hzip⟩⟩

/-- A name that no function or static of the owner had before is one that the resolution gave away,
if it is there afterwards. -/
theorem givesAway_iff {block : List Binding} {b : Binding}
    (hfirst : ∀ c ∈ block, isMember c = true → nameSpace c = nameSpace b → c.name ≠ b.name) :
    GivesAway block b ↔ b.name ∈ memberNames (nameSpace b) (resolve block) := by
  have hpairs := forall₂_members_resolve block
  constructor
  · rintro ⟨c, c', hzip, hspace, hname, _⟩
    have hbecomes := (List.forall₂_iff_zip.mp (members_survive block)).2 hzip
    obtain ⟨hmem, hmember⟩ := List.mem_filter.mp (List.of_mem_zip hzip).2
    refine List.mem_map.mpr ⟨c', List.mem_filter.mpr ⟨hmem, ?_⟩, hname⟩
    simp [hmember, hbecomes.nameSpace_eq, hspace]
  · intro hname
    obtain ⟨c', hc', hname⟩ := List.mem_map.mp hname
    obtain ⟨hmem, hboth⟩ := List.mem_filter.mp hc'
    obtain ⟨hmember, hspace⟩ : isMember c' = true ∧ nameSpace c' = nameSpace b := by
      simpa using hboth
    obtain ⟨c, hc, hzip, hbecomes⟩ :=
      exists_of_mem_right hpairs (List.mem_filter.mpr ⟨hmem, hmember⟩)
    obtain ⟨hbefore, hcMember⟩ := List.mem_filter.mp hc
    have hcSpace : nameSpace c = nameSpace b := hbecomes.nameSpace_eq.symm.trans hspace
    refine ⟨c, c', hzip, hcSpace, hname, ?_⟩
    rw [Becomes, if_neg (by simpa [isMember] using hcMember)] at hbecomes
    rcases hbecomes with rfl | ⟨k, rfl⟩
    · -- with its own name it would have been the first of that name
      rw [name_prepared] at hname
      exact absurd hname (hfirst c hbefore hcMember hcSpace)
    · exact ⟨k, hname.symm⟩

/-- The first function or static of a name and an owner keeps that name, unless resolving what comes
before it gives the name away as the numbered name of another one. -/
theorem first_keeps_name_iff (before after : List Binding) (b : Binding)
    (hb : isMember b = true)
    (hfirst : ∀ c ∈ before, isMember c = true → nameSpace c = nameSpace b → c.name ≠ b.name) :
    ∃ b', ((resolve (before ++ b :: after)).filter isMember)[(before.filter isMember).length]? =
        some b' ∧
      Becomes (before ++ b :: after) b b' ∧ (b'.name = b.name ↔ ¬ GivesAway before b) := by
  let settled := settle (before.foldl step {}).taken (nameSpace b) (prepared b)
  have hlength : (before.filter isMember).length = ((resolve before).filter isMember).length :=
    (members_survive before).length_eq
  refine ⟨settled, ?_, ?_, ?_⟩
  · obtain ⟨later, hlater⟩ := members_resolve_append before after hb
    rw [← hlater, hlength, List.append_assoc, List.getElem?_append_right (Nat.le_refl _),
      Nat.sub_self]
    rfl
  · rw [Becomes, if_neg (by simpa [isMember] using hb)]
    have hsettled := (settle_spec (before.foldl step {}).taken (nameSpace b) (prepared b)).2
    rwa [name_prepared] at hsettled
  · have hkept := name_settle_eq_iff (before.foldl step {}).taken (nameSpace b) (prepared b)
    rw [name_prepared, mem_taken_iff, ← givesAway_iff hfirst] at hkept
    exact hkept

/-- A free function without parameters. -/
def freeFunction (name : Text) : Binding := { name, shape := .function [] none }

theorem freeFunction_name_ne {name other : Text} (hne : name ≠ other) :
    ∀ c ∈ [freeFunction name, freeFunction name], isMember c = true →
      nameSpace c = nameSpace (freeFunction other) → c.name ≠ (freeFunction other).name := by
  intro c hc _ _
  have hname : c = freeFunction name := by simpa using hc
  rw [hname]
  exact hne

/-- After two functions of one name the first of another name keeps it. -/
theorem overloads_first_keeps_name :
    ∃ b', ((resolve [freeFunction "f", freeFunction "f", freeFunction "g"]).filter isMember)[2]? =
        some b' ∧
      Becomes [freeFunction "f", freeFunction "f", freeFunction "g"] (freeFunction "g") b' ∧
      (b'.name = (freeFunction "g").name ↔
        ¬ GivesAway [freeFunction "f", freeFunction "f"] (freeFunction "g")) :=
  first_keeps_name_iff [freeFunction "f", freeFunction "f"] [] (freeFunction "g") rfl
    (freeFunction_name_ne (by decide))

/-- The second of two functions is given the name that only the third one has in the source, and the
third one loses it. -/
theorem overloads_first_renamed :
    ¬ ∀ (before after : List Binding) (b : Binding), isMember b = true →
        (∀ c ∈ before, isMember c = true → nameSpace c = nameSpace b → c.name ≠ b.name) →
        (((resolve (before ++ b :: after)).filter isMember)[(before.filter isMember).length]?).map
          (·.name) = some b.name := by
  intro hkeeps
  have hname := hkeeps [freeFunction "f", freeFunction "f"] [] (freeFunction "f_1") rfl
    (freeFunction_name_ne (by decide))
  exact absurd hname (by decide)

end HostBindings.Rust.Collision
