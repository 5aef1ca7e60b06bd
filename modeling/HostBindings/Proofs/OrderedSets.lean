import HostBindings.Ordered

/-!
Finite sets as strictly increasing lists: their members and their order.
-/

namespace HostBindings.Ordered

variable {α : Type} [LT α] [DecidableLT α] [Std.Trichotomous (α := α) (· < ·)]

theorem mem_insert {a b : α} {as : List α} : b ∈ insert a as ↔ b = a ∨ b ∈ as := by
  induction as with
  | nil => exact List.mem_cons
  | cons c rest ih =>
      rw [insert]
      split
      · exact List.mem_cons
      · split
        · rw [List.mem_cons, ih, List.mem_cons, or_left_comm]
        · rename_i hle hge
          obtain rfl : a = c := Std.Trichotomous.trichotomous a c hle hge
          rw [List.mem_cons, or_self_left]

theorem mem_ofList {a : α} {as : List α} : a ∈ ofList as ↔ a ∈ as := by
  have hfoldl : ∀ acc : List α,
      a ∈ as.foldl (fun acc b => insert b acc) acc ↔ a ∈ as ∨ a ∈ acc := by
    induction as with
    | nil => simp
    | cons b rest ih =>
        intro acc
        rw [List.foldl_cons, ih, mem_insert, List.mem_cons, or_left_comm, or_assoc]
  rw [ofList, hfoldl]
  simp

variable [Trans (α := α) (· < ·) (· < ·) (· < ·)]

theorem pairwise_insert {a : α} {as : List α} (h : as.Pairwise (· < ·)) :
    (insert a as).Pairwise (· < ·) := by
  induction as with
  | nil => exact List.pairwise_singleton _ _
  | cons b rest ih =>
      obtain ⟨hb, hrest⟩ := List.pairwise_cons.mp h
      rw [insert]
      split
      · rename_i hlt
        refine List.pairwise_cons.mpr ⟨?_, h⟩
        intro c hc
        rcases List.mem_cons.mp hc with rfl | hc
        · exact hlt
        · exact Trans.trans hlt (hb c hc)
      · split
        · rename_i hlt
          refine List.pairwise_cons.mpr ⟨?_, ih hrest⟩
          intro c hc
          rcases mem_insert.mp hc with rfl | hc
          · exact hlt
          · exact hb c hc
        · exact h

theorem pairwise_ofList (as : List α) : (ofList as).Pairwise (· < ·) := by
  have hfoldl : ∀ acc : List α, acc.Pairwise (· < ·) →
      (as.foldl (fun acc b => insert b acc) acc).Pairwise (· < ·) := by
    induction as with
    | nil => exact fun _ h => h
    | cons b rest ih => exact fun acc h => ih _ (pairwise_insert h)
  exact hfoldl [] List.Pairwise.nil

variable [Std.Irrefl (α := α) (· < ·)]

theorem nodup_ofList (as : List α) : (ofList as).Nodup := by
  refine (pairwise_ofList as).imp ?_
  rintro a _ hlt rfl
  exact Std.Irrefl.irrefl a hlt

theorem ofList_congr {as bs : List α} (h : ∀ a, a ∈ as ↔ a ∈ bs) : ofList as = ofList bs := by
  have hperm : (ofList as).Perm (ofList bs) := by
    rw [List.perm_ext_iff_of_nodup (nodup_ofList as) (nodup_ofList bs)]
    intro a
    rw [mem_ofList, mem_ofList, h a]
  refine hperm.eq_of_pairwise ?_ (pairwise_ofList as) (pairwise_ofList bs)
  intro a b _ _ hab hba
  exact absurd (Trans.trans hab hba) (Std.Irrefl.irrefl a)

end HostBindings.Ordered
