import HostBindings.Proofs.IdentifierLaws
import HostBindings.Rust.Collision
import Mathlib.Data.List.Nodup
import Mathlib.Data.List.Perm.Subperm

/-!
The search for a free numbered name. Numbered names of one base are all different, so among one more
of them than there are taken names one is free, and the search ends at the first.
-/

namespace HostBindings.Rust.Collision

theorem numbered_injective (base : Text) : Function.Injective (numbered base) := by
  intro i j h
  have hdecimal : Text.decimal i = Text.decimal j := List.append_cancel_left h
  exact Text.decimal_injective hdecimal

/-- The search skips taken names only, and stops at a free one unless the fuel ends first. -/
theorem firstFree_spec (isTaken : Text → Bool) (base : Text) (fuel start : Nat) :
    ∃ k, start ≤ k ∧ k ≤ start + fuel ∧ firstFree isTaken base fuel start = numbered base k ∧
      (∀ i, start ≤ i → i < k → isTaken (numbered base i) = true) ∧
      (isTaken (numbered base k) = true → k = start + fuel) := by
  induction fuel generalizing start with
  | zero =>
      refine ⟨start, Nat.le_refl start, Nat.le_refl start, rfl, ?_, fun _ => rfl⟩
      intro i hle hlt
      omega
  | succ fuel ih =>
      rw [firstFree]
      split
      · rename_i htaken
        obtain ⟨k, hle, hbound, heq, hskipped, hend⟩ := ih (start + 1)
        refine ⟨k, by omega, by omega, heq, ?_, ?_⟩
        · intro i hstart hlt
          rcases Nat.eq_or_lt_of_le hstart with rfl | hlater
          · exact htaken
          · exact hskipped i hlater hlt
        · intro hk
          have hlast := hend hk
          omega
      · rename_i hfree
        refine ⟨start, Nat.le_refl start, by omega, rfl, ?_, ?_⟩
        · intro i hle hlt
          omega
        · intro htaken
          exact absurd htaken hfree

theorem exists_numbered_not_mem (taken : List Claim) (owner : Option Text) (base : Text) :
    ∃ k, 1 ≤ k ∧ k ≤ taken.length + 1 ∧ (⟨owner, numbered base k⟩ : Claim) ∉ taken := by
  by_contra hall
  push Not at hall
  let candidates : List Claim :=
    (List.range' 1 (taken.length + 1)).map fun k => ⟨owner, numbered base k⟩
  have hnodup : candidates.Nodup := by
    apply List.Nodup.map _ List.nodup_range'
    intro i j h
    exact numbered_injective base (Claim.mk.inj h).2
  have hsubset : candidates ⊆ taken := by
    intro claim hclaim
    obtain ⟨k, hk, rfl⟩ := List.mem_map.mp hclaim
    rw [List.mem_range'_1] at hk
    exact hall k hk.1 (by omega)
  have hlength := (List.subperm_of_subset hnodup hsubset).length_le
  simp only [candidates, List.length_map, List.length_range'] at hlength
  omega

/-- The fresh name is the numbered name with the least number that is not taken. -/
theorem freshName_spec (taken : List Claim) (owner : Option Text) (base : Text) :
    ∃ k, 1 ≤ k ∧ k ≤ taken.length + 1 ∧ freshName taken owner base = numbered base k ∧
      (⟨owner, numbered base k⟩ : Claim) ∉ taken ∧
      ∀ i, 1 ≤ i → i < k → (⟨owner, numbered base i⟩ : Claim) ∈ taken := by
  obtain ⟨k, hle, hbound, heq, hskipped, hend⟩ :=
    firstFree_spec (fun name => taken.contains ⟨owner, name⟩) base taken.length 1
  simp only [List.contains_iff_mem] at hskipped hend
  refine ⟨k, hle, by omega, heq, ?_, hskipped⟩
  intro htaken
  obtain ⟨free, hone, hlast, hfree⟩ := exists_numbered_not_mem taken owner base
  -- the search ran to its end, so every candidate was taken, the free one included
  have hk := hend htaken
  rcases Nat.lt_or_ge free k with hlt | hge
  · exact hfree (hskipped free hone hlt)
  · have hsame : free = k := by omega
    exact hfree (hsame ▸ htaken)

theorem isWord_numbered {base : Text} (h : Identifier.isWord base = true) (k : Nat) :
    Identifier.isWord (numbered base k) = true := by
  have hdigits : Identifier.isWord (Text.decimal k) = true := by
    rw [Identifier.isWord_iff]
    intro c hc
    simp [CodePoint.isWord, Text.isDigit_of_mem_decimal hc]
  have hline : Identifier.isWord (Text.ofString "_") = true := rfl
  simp only [Identifier.isWord, numbered, List.all_append, Bool.and_eq_true] at *
  exact ⟨⟨h, hline⟩, hdigits⟩

theorem numbered_not_mem_keywords (base : Text) (k : Nat) :
    numbered base k ∉ Identifier.keywords := by
  intro hmem
  have hall : (Identifier.keywords.all fun word => word.getLast?.all fun c => !c.isDigit) = true :=
    rfl
  have hlast := List.all_eq_true.mp hall _ hmem
  have hne := Text.decimal_ne_nil k
  rw [numbered, List.getLast?_append_of_ne_nil _ hne, List.getLast?_eq_some_getLast hne] at hlast
  have hdigit := Text.isDigit_of_mem_decimal (List.getLast_mem hne)
  simp [hdigit] at hlast

end HostBindings.Rust.Collision
