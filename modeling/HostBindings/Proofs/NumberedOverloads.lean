import HostBindings.Proofs.KeptNames
import Mathlib.Data.Finset.Card
import Mathlib.Order.Interval.Finset.Nat

/-!
Overloads and their numbers. The search for a free numbered name is a loop without a bound of its
own; it ends at the least free number, after at most one candidate more than the owner has names.
Hence the functions of one name are numbered one after another, as long as no other name of the same
owner gets in their way.
-/

namespace HostBindings.Rust.Collision

/-- The search from the `k`-th alternative on ends at the `found`-th one and looks at `tries`
candidates. -/
inductive Search (isTaken : Text → Prop) (base : Text) : Nat → Nat → Nat → Prop
  | free {k : Nat} (hfree : ¬ isTaken (numbered base k)) : Search isTaken base k k 1
  | next {k found tries : Nat} (htaken : isTaken (numbered base k))
      (h : Search isTaken base (k + 1) found tries) : Search isTaken base k found (tries + 1)

variable {isTaken : Text → Prop} {base : Text}

theorem Search.of_skipped {k found : Nat} (hle : k ≤ found)
    (hskipped : ∀ i, k ≤ i → i < found → isTaken (numbered base i))
    (hfree : ¬ isTaken (numbered base found)) :
    Search isTaken base k found (found - k + 1) := by
  obtain ⟨distance, rfl⟩ := Nat.exists_eq_add_of_le hle
  induction distance generalizing k with
  | zero =>
      rw [Nat.add_zero, Nat.sub_self]
      exact .free hfree
  | succ distance ih =>
      have hstep : k + (distance + 1) = (k + 1) + distance := by omega
      have htries : k + (distance + 1) - k + 1 = ((k + 1) + distance - (k + 1) + 1) + 1 := by omega
      rw [htries, hstep]
      refine .next (hskipped k (Nat.le_refl k) (by omega)) (ih (Nat.le_add_right _ _) ?_ ?_)
      · intro i hi hlt
        exact hskipped i (by omega) (by omega)
      · rwa [← hstep]

theorem Search.unique {k found found' tries tries' : Nat} (h : Search isTaken base k found tries)
    (h' : Search isTaken base k found' tries') : found = found' ∧ tries = tries' := by
  induction h generalizing tries' with
  | free hfree =>
      cases h' with
      | free => exact ⟨rfl, rfl⟩
      | next htaken _ => exact absurd htaken hfree
  | next htaken _ ih =>
      cases h' with
      | free hfree => exact absurd htaken hfree
      | next _ hrest =>
          obtain ⟨rfl, rfl⟩ := ih hrest
          exact ⟨rfl, rfl⟩

/-- The names that an owner has given away. -/
def takenNames (taken : List Claim) (owner : Option Text) : Finset Text :=
  ((taken.filter fun claim => claim.owner = owner).map (·.name)).toFinset

theorem mem_takenNames {taken : List Claim} {owner : Option Text} {name : Text} :
    name ∈ takenNames taken owner ↔ (⟨owner, name⟩ : Claim) ∈ taken := by
  simp only [takenNames, List.mem_toFinset, List.mem_map, List.mem_filter, decide_eq_true_eq]
  constructor
  · rintro ⟨claim, ⟨hclaim, rfl⟩, rfl⟩
    exact hclaim
  · intro hclaim
    exact ⟨_, ⟨hclaim, rfl⟩, rfl⟩

theorem le_card_of_skipped {names : Finset Text} {k : Nat}
    (hskipped : ∀ i, 1 ≤ i → i < k → numbered base i ∈ names) : k - 1 ≤ names.card := by
  have hsubset : (Finset.Ico 1 k).image (numbered base) ⊆ names := by
    intro name hname
    obtain ⟨i, hi, rfl⟩ := Finset.mem_image.mp hname
    rw [Finset.mem_Ico] at hi
    exact hskipped i hi.1 hi.2
  calc
    k - 1 = ((Finset.Ico 1 k).image (numbered base)).card := by
      rw [Finset.card_image_of_injective _ (numbered_injective base), Nat.card_Ico]
    _ ≤ names.card := Finset.card_le_card hsubset

/-- The fresh name is where the search of the owner's names ends. -/
theorem exists_search (taken : List Claim) (owner : Option Text) (base : Text) :
    ∃ k tries, Search (· ∈ takenNames taken owner) base 1 k tries ∧
      tries ≤ (takenNames taken owner).card + 1 ∧
      freshName taken owner base = numbered base k ∧
      1 ≤ k ∧ numbered base k ∉ takenNames taken owner ∧
      ∀ i, 1 ≤ i → i < k → numbered base i ∈ takenNames taken owner := by
  obtain ⟨k, hone, _, heq, hfree, hskipped⟩ := freshName_spec taken owner base
  simp only [← mem_takenNames] at hfree hskipped
  have hbound := le_card_of_skipped hskipped
  exact ⟨k, k - 1 + 1, .of_skipped hone hskipped hfree, by omega, heq, hone, hfree, hskipped⟩

theorem freshName_eq {taken : List Claim} {owner : Option Text} {base : Text} {n : Nat}
    (hn : 1 ≤ n)
    (htaken : ∀ k, 1 ≤ k → ((⟨owner, numbered base k⟩ : Claim) ∈ taken ↔ k < n)) :
    freshName taken owner base = numbered base n := by
  obtain ⟨k, hone, _, heq, hfree, hskipped⟩ := freshName_spec taken owner base
  have hle : n ≤ k := Nat.le_of_not_lt fun hlt => hfree ((htaken k hone).mpr hlt)
  have hge : k ≤ n := Nat.le_of_not_lt fun hlt =>
    absurd ((htaken n hn).mp (hskipped n hn hlt)) (Nat.lt_irrefl n)
  rw [heq, Nat.le_antisymm hge hle]

def line : CodePoint := CodePoint.ofChar '_'

theorem numbered_eq (base : Text) (k : Nat) : numbered base k = base ++ line :: Text.decimal k := by
  rw [numbered, List.append_assoc]
  rfl

theorem line_not_mem_decimal (k : Nat) : line ∉ Text.decimal k := by
  intro hmem
  exact absurd (Text.isDigit_of_mem_decimal hmem) (by decide)

/-- A numbered name tells its base, since there is no underscore in its number. -/
theorem base_eq_of_numbered_eq {base other : Text} {i j : Nat}
    (h : numbered base i = numbered other j) : base = other := by
  rw [numbered_eq, numbered_eq] at h
  rcases List.append_eq_append_iff.mp h with ⟨more, hother, hrest⟩ | ⟨more, hbase, hrest⟩
  · cases more with
    | nil => rw [hother, List.append_nil]
    | cons c more =>
        have hdigits := (List.cons.inj hrest).2
        exact absurd (hdigits ▸ List.mem_append_right more List.mem_cons_self)
          (line_not_mem_decimal i)
  · cases more with
    | nil => rw [hbase, List.append_nil]
    | cons c more =>
        have hdigits := (List.cons.inj hrest).2
        exact absurd (hdigits ▸ List.mem_append_right more List.mem_cons_self)
          (line_not_mem_decimal j)

theorem count_line_bareName (name : Text) :
    (Identifier.bareName name).count line = name.count line := by
  rw [Identifier.bareName]
  split
  · rename_i hmark
    obtain ⟨rest, rfl⟩ := List.isPrefixOf_iff_prefix.mp hmark
    have hnone : Identifier.rawMark.count line = 0 := by decide
    have hdrop : (Identifier.rawMark ++ rest).drop 2 = rest := rfl
    rw [hdrop, List.count_append, hnone, Nat.zero_add]
  · rfl

theorem numbered_bareName_ne (name : Text) (k : Nat) :
    name ≠ numbered (Identifier.bareName name) k := by
  intro h
  have hcount := congrArg (List.count line) h
  rw [numbered_eq, List.count_append, count_line_bareName, List.count_cons_self] at hcount
  omega

/-- Another name that gets into the way of the functions of a name neither as it is nor numbered. -/
structure IsApart (name other : Text) : Prop where
  bare : Identifier.bareName other ≠ Identifier.bareName name
  plain : ∀ k, 1 ≤ k → other ≠ numbered (Identifier.bareName name) k
  numbered : ∀ k, 1 ≤ k → name ≠ Collision.numbered (Identifier.bareName other) k

/-- Whether a name carries the raw mark at most once. -/
def isMarkedOnce (name : Text) : Prop :=
  (Identifier.bareName name).startsWith Identifier.rawMark = false

theorem eq_or_eq_rawMark_append (name : Text) :
    name = Identifier.bareName name ∨ name = Identifier.rawMark ++ Identifier.bareName name := by
  rw [Identifier.bareName]
  split
  · rename_i hmark
    obtain ⟨rest, rfl⟩ := List.isPrefixOf_iff_prefix.mp hmark
    exact Or.inr rfl
  · exact Or.inl rfl

/-- Numbering brings no raw mark to a name that has none. -/
theorem rawMark_append_ne_numbered {base : Text} (h : base.startsWith Identifier.rawMark = false)
    (rest : Text) (k : Nat) : Identifier.rawMark ++ rest ≠ numbered base k := by
  intro heq
  rw [numbered_eq] at heq
  match base with
  | [] => exact absurd (List.cons.inj heq).1 (by decide)
  | [c] => exact absurd (List.cons.inj (List.cons.inj heq).2).1 (by decide)
  | c :: d :: more =>
      obtain ⟨hc, htail⟩ := List.cons.inj heq
      obtain ⟨hd, _⟩ := List.cons.inj htail
      rw [← hc, ← hd] at h
      cases h

theorem isApart_of_bareNames {name other : Text} (hname : isMarkedOnce name)
    (hother : isMarkedOnce other)
    (hbare : Identifier.bareName other ≠ Identifier.bareName name)
    (hplain : ∀ k, 1 ≤ k →
      Identifier.bareName other ≠ numbered (Identifier.bareName name) k)
    (hnumbered : ∀ k, 1 ≤ k →
      Identifier.bareName name ≠ numbered (Identifier.bareName other) k) :
    IsApart name other := by
  refine ⟨hbare, fun k hk heq => ?_, fun k hk heq => ?_⟩
  · rcases eq_or_eq_rawMark_append other with hsame | hmarked
    · exact hplain k hk (hsame ▸ heq)
    · exact rawMark_append_ne_numbered hname _ k (hmarked ▸ heq)
  · rcases eq_or_eq_rawMark_append name with hsame | hmarked
    · exact hnumbered k hk (hsame ▸ heq)
    · exact rawMark_append_ne_numbered hother _ k (hmarked ▸ heq)

/-- The functions and statics of a block, each next to what it becomes. -/
def outcomes (block : List Binding) : List (Binding × Binding) :=
  (block.filter isMember).zip ((resolve block).filter isMember)

/-- The names under which the bindings of a name and an owner leave a block. -/
def overloadNames (owner : Option Text) (name : Text) (block : List Binding) : List Text :=
  ((outcomes block).filter fun pair => nameSpace pair.1 = owner ∧ pair.1.name = name).map
    (·.2.name)

/-- The number of bindings with a name and an owner. -/
def overloadCount (owner : Option Text) (name : Text) (block : List Binding) : Nat :=
  block.countP fun b => isMember b && decide (nameSpace b = owner ∧ b.name = name)

/-- The name of the `k`-th binding of a name, counted from zero. -/
def overloadName (name : Text) : Nat → Text
  | 0 => name
  | k + 1 => numbered (Identifier.bareName name) (k + 1)

theorem outcomes_snoc_of_isMember (block : List Binding) {b : Binding} (hb : isMember b = true) :
    outcomes (block ++ [b]) = outcomes block ++
      [(b, settle (block.foldl step {}).taken (nameSpace b) (prepared b))] := by
  have hlength : (block.filter isMember).length = ((resolve block).filter isMember).length :=
    (members_survive block).length_eq
  have hbegins := members_resolve_append block [] hb
  have hall : (resolve (block ++ [b])).filter isMember = (resolve block).filter isMember ++
      [settle (block.foldl step {}).taken (nameSpace b) (prepared b)] := by
    refine (hbegins.eq_of_length ?_).symm
    rw [← (members_survive (block ++ [b])).length_eq, List.length_append, ← hlength,
      List.filter_append, List.length_append, List.filter_cons_of_pos hb]
    rfl
  rw [outcomes, hall, List.filter_append, List.filter_cons_of_pos hb, List.zip_append hlength]
  rfl

theorem outcomes_snoc_of_not_isMember (block : List Binding) {b : Binding}
    (hb : isMember b = false) : outcomes (block ++ [b]) = outcomes block := by
  have hhost : b.isHostType = true := by simpa [isMember] using hb
  have hsame : (resolve (block ++ [b])).filter isMember = (resolve block).filter isMember := by
    rw [resolve, resolve, List.foldl_append, List.foldl_cons, List.foldl_nil]
    cases hknown : (block.foldl step {}).kept.any (isTypeNamed b.name) with
    | true => rw [step_of_repeated_type hhost hknown, filter_isMember_foldType]
    | false =>
        rw [step_of_fresh_type hhost hknown, List.filter_append,
          List.filter_cons_of_neg (by simp [hb]), List.filter_nil, List.append_nil]
  rw [outcomes, hsame, List.filter_append, List.filter_cons_of_neg (by simp [hb]),
    List.filter_nil, List.append_nil, outcomes]

theorem taken_step_of_isMember (s : State) {b : Binding} (hb : isMember b = true) :
    (step s b).taken =
      ⟨nameSpace b, (settle s.taken (nameSpace b) (prepared b)).name⟩ :: s.taken := by
  rw [step_of_isMember hb, keep]

theorem taken_step_of_not_isMember (s : State) {b : Binding} (hb : isMember b = false) :
    (step s b).taken = s.taken := by
  have hhost : b.isHostType = true := by simpa [isMember] using hb
  cases hknown : s.kept.any (isTypeNamed b.name) with
  | true => rw [step_of_repeated_type hhost hknown]
  | false => rw [step_of_fresh_type hhost hknown]

/-- What an owner has given away of a name and its numbered names after `n` bindings of that name:
the name itself and the numbers up to the last one. -/
structure Numbered (owner : Option Text) (name : Text) (n : Nat) (taken : List Claim) : Prop where
  own : (⟨owner, name⟩ : Claim) ∈ taken ↔ 0 < n
  later : ∀ k, 1 ≤ k →
    ((⟨owner, numbered (Identifier.bareName name) k⟩ : Claim) ∈ taken ↔ k < n)

variable {owner : Option Text} {name : Text} {n : Nat} {taken : List Claim}

theorem numbered_nil : Numbered owner name 0 [] := ⟨by simp, by simp⟩

theorem Numbered.cons_of_ne (h : Numbered owner name n taken) {claim : Claim}
    (hown : claim ≠ ⟨owner, name⟩)
    (hlater : ∀ k, 1 ≤ k → claim ≠ ⟨owner, numbered (Identifier.bareName name) k⟩) :
    Numbered owner name n (claim :: taken) := by
  refine ⟨?_, fun k hk => ?_⟩
  · rw [List.mem_cons, or_iff_right hown.symm]
    exact h.own
  · rw [List.mem_cons, or_iff_right (hlater k hk).symm]
    exact h.later k hk

theorem Numbered.name_settle (h : Numbered owner name n taken) {b : Binding} (hb : b.name = name) :
    (settle taken owner b).name = overloadName name n := by
  subst hb
  rw [settle]
  cases n with
  | zero =>
      have hfree : (⟨owner, b.name⟩ : Claim) ∉ taken := fun hmem =>
        absurd (h.own.mp hmem) (Nat.lt_irrefl 0)
      rw [if_neg (by simpa using hfree)]
      rfl
  | succ n =>
      have htaken : (⟨owner, b.name⟩ : Claim) ∈ taken := h.own.mpr (Nat.succ_pos n)
      rw [if_pos (by simpa using htaken), freshName_eq (Nat.succ_pos n) h.later]
      rfl

theorem Numbered.cons_own (h : Numbered owner name n taken) :
    Numbered owner name (n + 1) (⟨owner, overloadName name n⟩ :: taken) := by
  cases n with
  | zero =>
      refine ⟨by simp [overloadName], fun k hk => ?_⟩
      have hne : (⟨owner, numbered (Identifier.bareName name) k⟩ : Claim) ≠ ⟨owner, name⟩ :=
        fun hclaim => numbered_bareName_ne name k (Claim.mk.inj hclaim).2.symm
      rw [overloadName, List.mem_cons, or_iff_right hne, h.later k hk]
      omega
  | succ n =>
      refine ⟨?_, fun k hk => ?_⟩
      · rw [List.mem_cons]
        exact iff_of_true (Or.inr (h.own.mpr (Nat.succ_pos n))) (Nat.succ_pos _)
      · rw [overloadName, List.mem_cons, h.later k hk, Claim.mk.injEq,
          (numbered_injective (Identifier.bareName name)).eq_iff]
        simp only [true_and]
        omega

theorem Numbered.cons_apart (h : Numbered owner name n taken) {b : Binding}
    (hb : IsApart name b.name) :
    Numbered owner name n (⟨owner, (settle taken owner b).name⟩ :: taken) := by
  rw [settle]
  split
  · obtain ⟨i, hi, _, hfresh, _⟩ := freshName_spec taken owner (Identifier.bareName b.name)
    rw [hfresh]
    refine h.cons_of_ne (fun hclaim => ?_) fun k _ hclaim => ?_
    · exact hb.numbered i hi (Claim.mk.inj hclaim).2.symm
    · exact hb.bare (base_eq_of_numbered_eq (Claim.mk.inj hclaim).2)
  · refine h.cons_of_ne (fun hclaim => ?_) fun k hk hclaim => ?_
    · exact hb.bare (congrArg Identifier.bareName (Claim.mk.inj hclaim).2)
    · exact hb.plain k hk (Claim.mk.inj hclaim).2

/-- What a whole block gives away of a name, and the names that it leaves with. The induction takes
in one more binding at the end: one of the name gets the next number, and any other one stays
apart. -/
theorem numbered_block {block : List Binding}
    (hapart : ∀ b ∈ block, isMember b = true → nameSpace b = owner →
      b.name = name ∨ IsApart name b.name) :
    Numbered owner name (overloadCount owner name block) (block.foldl step {}).taken ∧
      overloadNames owner name block =
        (List.range (overloadCount owner name block)).map (overloadName name) := by
  induction block using List.reverseRecOn with
  | nil => exact ⟨numbered_nil, rfl⟩
  | append_singleton block b ih =>
      obtain ⟨hnumbered, hnames⟩ := ih fun c hc => hapart c (List.mem_append_left _ hc)
      have hb := hapart b (List.mem_append_right _ (List.mem_singleton_self b))
      rw [List.foldl_append, List.foldl_cons, List.foldl_nil, overloadCount, List.countP_append,
        ← overloadCount, overloadNames]
      cases hmember : isMember b with
      | false =>
          rw [List.countP_cons_of_neg (by simp [hmember]), List.countP_nil, Nat.add_zero,
            taken_step_of_not_isMember _ hmember, outcomes_snoc_of_not_isMember _ hmember]
          exact ⟨hnumbered, hnames⟩
      | true =>
          rw [taken_step_of_isMember _ hmember, outcomes_snoc_of_isMember _ hmember,
            List.filter_append, List.map_append, ← overloadNames, hnames]
          by_cases hspace : nameSpace b = owner
          · rcases hb hmember hspace with hname | hother
            · have hsettled :=
                hnumbered.name_settle (b := prepared b) (by rw [name_prepared, hname])
              rw [List.countP_cons_of_pos (by simp [hmember, hspace, hname]), List.countP_nil,
                List.filter_cons_of_pos (by simp [hspace, hname]), hspace, hsettled,
                List.range_succ, List.map_append]
              refine ⟨hnumbered.cons_own, ?_⟩
              rw [List.filter_nil, List.map_singleton, List.map_singleton, hsettled]
            · have hne : b.name ≠ name := fun hsame =>
                hother.bare (congrArg Identifier.bareName hsame)
              have hsettled := hnumbered.cons_apart (b := prepared b) (by rwa [name_prepared])
              rw [List.countP_cons_of_neg (by simp [hne]), List.countP_nil, Nat.add_zero,
                List.filter_cons_of_neg (by simp [hne]), hspace]
              exact ⟨hsettled, List.append_nil _⟩
          · rw [List.countP_cons_of_neg (by simp [hspace]), List.countP_nil, Nat.add_zero,
              List.filter_cons_of_neg (by simp [hspace])]
            refine ⟨hnumbered.cons_of_ne ?_ ?_, List.append_nil _⟩
            · exact fun hclaim => hspace (Claim.mk.inj hclaim).1
            · exact fun k _ hclaim => hspace (Claim.mk.inj hclaim).1

/-- The search for another name ends after at most one candidate more than the owner has names, at
the least number that is free; there is no other way for it to go. So the bindings of one name and
one owner leave a block with the name and its numbers in order, if every other name of that owner
stays apart; and among names that carry the raw mark at most once those stay apart whose bare names
are not numbered names of each other. -/
theorem resolve_numbersOverloads :
    (∀ (taken : List Claim) (owner : Option Text) (b : Binding),
      (⟨owner, b.name⟩ : Claim) ∈ taken →
      ∃ k tries,
        Search (· ∈ takenNames taken owner) (Identifier.bareName b.name) 1 k tries ∧
        (∀ k' tries',
          Search (· ∈ takenNames taken owner) (Identifier.bareName b.name) 1 k' tries' →
            k' = k ∧ tries' = tries) ∧
        tries ≤ (takenNames taken owner).card + 1 ∧
        (settle taken owner b).name = numbered (Identifier.bareName b.name) k ∧
        1 ≤ k ∧ numbered (Identifier.bareName b.name) k ∉ takenNames taken owner ∧
        ∀ i, 1 ≤ i → i < k →
          numbered (Identifier.bareName b.name) i ∈ takenNames taken owner) ∧
    (∀ (owner : Option Text) (name : Text) (block : List Binding),
      (∀ b ∈ block, isMember b = true → nameSpace b = owner →
        b.name = name ∨ IsApart name b.name) →
      overloadNames owner name block =
        (List.range (overloadCount owner name block)).map (overloadName name)) ∧
    ∀ name other : Text, isMarkedOnce name → isMarkedOnce other →
      Identifier.bareName other ≠ Identifier.bareName name →
      (∀ k, 1 ≤ k → Identifier.bareName other ≠ numbered (Identifier.bareName name) k) →
      (∀ k, 1 ≤ k → Identifier.bareName name ≠ numbered (Identifier.bareName other) k) →
      IsApart name other := by
  refine ⟨?_, ?_, ?_⟩
  · intro taken owner b htaken
    obtain ⟨k, tries, hsearch, hbound, hfresh, hrest⟩ :=
      exists_search taken owner (Identifier.bareName b.name)
    refine ⟨k, tries, hsearch, fun k' tries' h => h.unique hsearch, hbound, ?_, hrest⟩
    rw [settle, if_pos (by simpa using htaken), hfresh]
    rfl
  · intro owner name block hapart
    exact (numbered_block hapart).2
  · intro name other
    exact isApart_of_bareNames

theorem ne_numbered_of_head {name base : Text} {c d : CodePoint} (hname : name.head? = some c)
    (hbase : base.head? = some d) (hne : c ≠ d) (k : Nat) : name ≠ numbered base k := by
  rintro rfl
  rw [numbered_eq, List.head?_append, hbase] at hname
  exact hne (Option.some.inj hname).symm

/-- Three functions of one name, with one of another name between them. -/
def overloadedBlock : List Binding :=
  [freeFunction "f", freeFunction "g", freeFunction "f", freeFunction "f"]

/-- The functions of one name are numbered past the other one; and where the first number is taken
the search ends at the second one. -/
theorem overloadedBlock_numbersOverloads :
    (⟨none, "f"⟩ : Claim) ∈ [(⟨none, "f_1"⟩ : Claim), ⟨none, "f"⟩] ∧
    (∃ k tries, Search (· ∈ takenNames [⟨none, "f_1"⟩, ⟨none, "f"⟩] none) "f" 1 k tries ∧
      (settle [⟨none, "f_1"⟩, ⟨none, "f"⟩] none (freeFunction "f")).name = numbered "f" k) ∧
    (∀ b ∈ overloadedBlock, isMember b = true → nameSpace b = none →
      b.name = Text.ofString "f" ∨ IsApart "f" b.name) ∧
    overloadNames none "f" overloadedBlock = ["f", "f_1", "f_2"] := by
  have htaken : (⟨none, "f"⟩ : Claim) ∈ [(⟨none, "f_1"⟩ : Claim), ⟨none, "f"⟩] :=
    List.mem_cons_of_mem _ (List.mem_singleton_self _)
  have hapart : IsApart "f" "g" :=
    resolve_numbersOverloads.2.2 "f" "g" rfl rfl (by decide)
      (fun k _ => ne_numbered_of_head rfl rfl (by decide) k)
      fun k _ => ne_numbered_of_head rfl rfl (by decide) k
  have hblock : ∀ b ∈ overloadedBlock, isMember b = true → nameSpace b = none →
      b.name = Text.ofString "f" ∨ IsApart "f" b.name := by
    intro b hb _ _
    simp only [overloadedBlock, List.mem_cons, List.not_mem_nil, or_false] at hb
    rcases hb with rfl | rfl | rfl | rfl
    · exact Or.inl rfl
    · exact Or.inr hapart
    · exact Or.inl rfl
    · exact Or.inl rfl
  obtain ⟨k, tries, hsearch, _, _, hname, _⟩ :=
    resolve_numbersOverloads.1 [⟨none, "f_1"⟩, ⟨none, "f"⟩] none (freeFunction "f") htaken
  refine ⟨htaken, ⟨k, tries, hsearch, hname⟩, hblock, ?_⟩
  rw [resolve_numbersOverloads.2.1 none "f" overloadedBlock hblock]
  rfl

/-- A name with two raw marks keeps one of them where it is numbered. So it is given another number
where the first one is a name with one raw mark, though the bare names are apart. -/
theorem doubleMark_skips_number :
    ¬ ∀ (owner : Option Text) (name : Text) (block : List Binding),
      (∀ b ∈ block, isMember b = true → nameSpace b = owner → b.name ≠ name →
        Identifier.bareName b.name ≠ Identifier.bareName name ∧
        ∀ k, Identifier.bareName b.name ≠ numbered (Identifier.bareName name) k ∧
          Identifier.bareName name ≠ numbered (Identifier.bareName b.name) k) →
      overloadNames owner name block =
        (List.range (overloadCount owner name block)).map (overloadName name) := by
  intro hnumbers
  have hnames := hnumbers none "r#r#y"
    [freeFunction "r#y_1", freeFunction "r#r#y", freeFunction "r#r#y"] ?_
  · exact absurd hnames (by decide)
  · intro b hb _ _ hne
    obtain rfl : b = freeFunction "r#y_1" := by
      simp only [List.mem_cons, List.not_mem_nil, or_false, or_self] at hb
      rcases hb with rfl | rfl
      · rfl
      · exact absurd rfl hne
    refine ⟨by decide, fun k => ⟨?_, ?_⟩⟩
    · exact ne_numbered_of_head rfl rfl (by decide) k
    · exact ne_numbered_of_head rfl rfl (by decide) k

end HostBindings.Rust.Collision
