import HostBindings.FileTree
import HostBindings.Proofs.TextLaws

/-!
Laws of trees of files: where paths lead, what each change leaves, and what it keeps. A path that
can be walked leads to a place that does not depend on the tree, and whether it can be walked
depends on the directories alone.
-/

namespace HostBindings

section EState

variable {ε σ α β : Type}

theorem run_bind_eq_ok_iff {x : EStateM ε σ α} {f : α → EStateM ε σ β} {s s'' : σ} {b : β} :
    (x >>= f).run s = .ok b s'' ↔ ∃ a s', x.run s = .ok a s' ∧ (f a).run s' = .ok b s'' := by
  rw [EStateM.run_bind]
  constructor
  · intro h
    split at h
    · rename_i a s' hx
      exact ⟨a, s', hx, h⟩
    · cases h
  · rintro ⟨a, s', hx, hf⟩
    rw [hx]
    exact hf

theorem run_ofExcept_eq_ok_iff {e : Except ε α} {s s' : σ} {a : α} :
    (ofExcept e : EStateM ε σ α).run s = .ok a s' ↔ e = .ok a ∧ s' = s := by
  constructor
  · intro h
    cases e with
    | error e => cases h
    | ok b =>
        cases h
        exact ⟨rfl, rfl⟩
  · rintro ⟨rfl, rfl⟩
    rfl

theorem except_bind_eq_ok_iff {x : Except ε α} {f : α → Except ε β} {b : β} :
    (x >>= f) = .ok b ↔ ∃ a, x = .ok a ∧ f a = .ok b := by
  constructor
  · intro h
    cases x with
    | error e => cases h
    | ok a => exact ⟨a, rfl, h⟩
  · rintro ⟨a, rfl, h⟩
    exact h

end EState

/-- The place that a part leads to. -/
def Path.advance (place : Place) (part : Text) : Place :=
  if part = climb then place.dropLast else place ++ [part]

/-- The place that a path leads to, if it can be walked. -/
def Path.place (home : Place) (p : Path) : Place :=
  p.parts.foldl advance (if p.isAbsolute then [] else home)

/-- A code point that a path may hold: one that has bytes and does not end the path. -/
def Path.isAllowed (c : CodePoint) : Bool := (!c.isSurrogate || isLooseByte c) && c != '\x00'

/-- A name that a walk enters, wherever it is. -/
def Path.IsEnterable (name : Text) : Prop := name ≠ climb ∧ name.all isAllowed = true

/-- A path that the system takes, whatever there is in the tree. -/
def Path.IsUsable (p : Path) : Prop :=
  isEncodable p.toText = true ∧ p.toText.contains '\x00' = false ∧ byteCount p.toText ≤ maxBytes

theorem Path.foldl_advance {parts : List Text} (h : climb ∉ parts) (start : Place) :
    parts.foldl advance start = start ++ parts := by
  induction parts generalizing start with
  | nil => simp
  | cons part rest ih =>
      have hpart : part ≠ climb := Ne.symm (List.ne_of_not_mem_cons h)
      rw [List.foldl_cons, advance, if_neg hpart, ih (List.not_mem_of_not_mem_cons h)]
      simp

theorem Path.place_below (home : Place) (p : Path) {parts : List Text}
    (h : Path.climb ∉ parts) : (p.below parts).place home = p.place home ++ parts := by
  simp only [Path.place, Path.below, List.foldl_append]
  exact Path.foldl_advance h _

theorem Path.rootOf_cases (t : Text) :
    rootOf t = [] ∨ rootOf t = Text.ofString "/" ∨ rootOf t = Text.ofString "//" := by
  have hslashes : ∀ c ∈ t.takeWhile (· == CodePoint.ofChar '/'), c = CodePoint.ofChar '/' := by
    intro c hc
    simpa using List.all_eq_true.mp List.all_takeWhile c hc
  rw [rootOf]
  generalize t.takeWhile (· == CodePoint.ofChar '/') = slashes at hslashes
  split
  · match slashes, hslashes with
    | [], _ => exact Or.inl rfl
    | [a], h =>
        rw [h a (by simp)]
        exact Or.inr (Or.inl rfl)
    | [a, b], h =>
        rw [h a (by simp), h b (by simp)]
        exact Or.inr (Or.inr rfl)
    | _ :: _ :: _ :: _, _ => contradiction
  · exact Or.inr (Or.inl rfl)

theorem Path.all_toText {holds : CodePoint → Bool} (hslash : holds '/' = true)
    (hpoint : holds '.' = true) (p : Path) :
    p.toText.all holds = (p.root.all holds && p.parts.all (·.all holds)) := by
  have hseparator : (Text.ofString "/").all holds = true := by
    simpa [Text.ofString] using hslash
  rw [toText]
  split
  · rename_i hempty
    rw [Bool.and_eq_true, List.isEmpty_iff, List.isEmpty_iff] at hempty
    simpa [Text.ofString, hempty.1, hempty.2] using hpoint
  · rw [List.all_append, Text.all_join hseparator]

theorem Path.all_isAllowed_iff {t : Text} :
    t.all isAllowed = true ↔
      isEncodable t = true ∧ t.contains (CodePoint.ofChar '\x00') = false := by
  simp only [isEncodable, isAllowed, List.all_eq_true, Bool.and_eq_true, bne_iff_ne,
    List.contains_eq_mem, decide_eq_false_iff_not]
  constructor
  · intro h
    exact ⟨fun c hc => (h c hc).1, fun hzero => (h _ hzero).2 rfl⟩
  · rintro ⟨hcode, hzero⟩ c hc
    exact ⟨hcode c hc, fun heq => hzero (heq ▸ hc)⟩

theorem Path.all_isAllowed_toText {p : Path} :
    p.toText.all isAllowed = true ↔
      p.root.all isAllowed = true ∧ ∀ part ∈ p.parts, part.all isAllowed = true := by
  rw [all_toText (by decide) (by decide), Bool.and_eq_true]
  exact and_congr_right fun _ => List.all_eq_true

namespace FileTree

@[simp] theorem node?_nil (t : FileTree) : t.node? [] = some .directory := rfl

theorem lookup_filter_place (keep : Place → Bool) (place : Place)
    (entries : List (Place × FileNode)) :
    (entries.filter fun e => keep e.1).lookup place =
      if keep place then entries.lookup place else none := by
  induction entries with
  | nil => simp
  | cons entry rest ih =>
      obtain ⟨other, node⟩ := entry
      rw [List.filter_cons]
      by_cases hplace : place = other
      · subst hplace
        cases hkeep : keep place <;> simp [hkeep, ih]
      · have hne : (place == other) = false := by simpa using hplace
        cases hkeep : keep other <;> simp [List.lookup_cons, hne, ih]

theorem node?_put (t : FileTree) {place : Place} (hplace : place ≠ []) (node : FileNode)
    (other : Place) :
    (t.put place node).node? other = if other = place then some node else t.node? other := by
  by_cases hnil : other = []
  · rw [hnil, if_neg (Ne.symm hplace), node?_nil, node?_nil]
  · simp only [node?, if_neg hnil, put, List.lookup_cons,
      lookup_filter_place (fun other => other != place)]
    by_cases hsame : other = place
    · simp [hsame]
    · have hne : (other == place) = false := by simpa using hsame
      simp [hsame, hne]

theorem node?_clear (t : FileTree) {place : Place} (hplace : place ≠ []) (other : Place) :
    (t.clear place).node? other = if place <+: other then none else t.node? other := by
  by_cases hnil : other = []
  · rw [hnil, if_neg (by simpa using hplace), node?_nil, node?_nil]
  · simp only [node?, if_neg hnil, clear,
      lookup_filter_place (fun other => !place.isPrefixOf other)]
    by_cases hbelow : place <+: other
    · simp [hbelow, List.isPrefixOf_iff_prefix.mpr hbelow]
    · simp [hbelow]

theorem put_put (t : FileTree) (place : Place) (node node' : FileNode) :
    (t.put place node).put place node' = t.put place node' := by
  simp [put]

theorem ne_nil_of_ne_directory {t : FileTree} {place : Place}
    (h : t.node? place ≠ some .directory) : place ≠ [] := by
  rintro rfl
  exact h rfl

theorem ne_nil_of_node?_eq_none {t : FileTree} {place : Place} (h : t.node? place = none) :
    place ≠ [] := by
  rintro rfl
  cases h

@[simp] theorem home_put (t : FileTree) (place : Place) (node : FileNode) :
    (t.put place node).home = t.home := rfl

@[simp] theorem home_clear (t : FileTree) (place : Place) : (t.clear place).home = t.home := rfl

theorem walk_cons (t : FileTree) (place : Place) (part : Text) (rest : List Text) :
    t.walk place (part :: rest) =
      match t.node? place with
      | none => .error .missing
      | some (.file _) => .error .notDirectory
      | some .directory =>
        if Path.maxPartBytes < Path.byteCount part then .error .tooLong
        else t.walk (Path.advance place part) rest := rfl

theorem walk_cons_eq_ok {t : FileTree} {place found : Place} {part : Text} {rest : List Text}
    (h : t.walk place (part :: rest) = .ok found) :
    t.node? place = some .directory ∧ Path.byteCount part ≤ Path.maxPartBytes ∧
      t.walk (Path.advance place part) rest = .ok found := by
  rw [walk_cons] at h
  split at h
  · cases h
  · cases h
  · rename_i hnode
    split at h
    · cases h
    · rename_i hbytes
      exact ⟨hnode, Nat.le_of_not_lt hbytes, h⟩

theorem walk_append {t : FileTree} {place found : Place} {parts : List Text}
    (h : t.walk place parts = .ok found) (rest : List Text) :
    t.walk place (parts ++ rest) = t.walk found rest := by
  induction parts generalizing place with
  | nil =>
      rw [Except.ok.inj h]
      rfl
  | cons part parts ih =>
      obtain ⟨hnode, hbytes, hwalk⟩ := walk_cons_eq_ok h
      rw [List.cons_append, walk_cons, hnode]
      dsimp only
      rw [if_neg (Nat.not_lt_of_le hbytes)]
      exact ih hwalk

theorem walk_eq_ok {t : FileTree} {place found : Place} {parts : List Text}
    (h : t.walk place parts = .ok found) :
    found = parts.foldl Path.advance place := by
  induction parts generalizing place with
  | nil => exact (Except.ok.inj h).symm
  | cons part rest ih => exact ih (walk_cons_eq_ok h).2.2

theorem locate_eq_ok_iff {t : FileTree} {p : Path} {place : Place} :
    t.locate p = .ok place ↔
      p.IsUsable ∧ t.walk (if p.isAbsolute then [] else t.home) p.parts = .ok place := by
  simp only [locate, Path.IsUsable]
  split
  · rename_i hcode
    rw [Bool.not_eq_true'] at hcode
    simp [hcode]
  · rename_i hcode
    rw [Bool.not_eq_true', Bool.not_eq_false] at hcode
    split
    · rename_i hzero
      simp only [hzero, reduceCtorEq, false_and, and_false]
    · rename_i hzero
      rw [Bool.not_eq_true] at hzero
      split
      · rename_i hlong
        simp only [Nat.not_le_of_lt hlong, reduceCtorEq, false_and, and_false]
      · rename_i hshort
        simp only [hcode, hzero, Nat.le_of_not_lt hshort, true_and]

theorem locate_eq_ok {t : FileTree} {p : Path} {place : Place} (h : t.locate p = .ok place) :
    place = p.place t.home :=
  walk_eq_ok (locate_eq_ok_iff.mp h).2

theorem locate_of_isAllowed (t : FileTree) {p : Path} (h : p.toText.all Path.isAllowed = true) :
    t.locate p = .error .tooLong ∨
      t.locate p = t.walk (if p.isAbsolute then [] else t.home) p.parts := by
  obtain ⟨hcode, hzero⟩ := Path.all_isAllowed_iff.mp h
  simp only [locate, hcode, hzero, Bool.not_true, Bool.false_eq_true, if_false]
  split
  · exact Or.inl rfl
  · exact Or.inr rfl

theorem look_eq (t : FileTree) (p : Path) :
    t.look p =
      match t.locate p with
      | .ok place => .ok (t.node? place)
      | .error .tooLong => .error .tooLong
      | .error _ => .ok none := rfl

theorem isFile_eq_true_iff {t : FileTree} {p : Path} :
    t.isFile p = .ok true ↔
      ∃ place bytes, t.locate p = .ok place ∧ t.node? place = some (.file bytes) := by
  rw [isFile, look_eq]
  constructor
  · intro h
    split at h
    · rename_i place hlocate
      cases hnode : t.node? place with
      | none =>
          rw [hnode] at h
          cases h
      | some node =>
          rw [hnode] at h
          cases node with
          | directory => cases h
          | file bytes => exact ⟨place, bytes, hlocate, hnode⟩
    · cases h
    · cases h
  · rintro ⟨place, bytes, hlocate, hnode⟩
    simp only [hlocate, hnode]
    rfl

theorem isDirectory_eq_true_iff {t : FileTree} {p : Path} :
    t.isDirectory p = .ok true ↔
      ∃ place, t.locate p = .ok place ∧ t.node? place = some .directory := by
  rw [isDirectory, look_eq]
  constructor
  · intro h
    split at h
    · rename_i place hlocate
      have hnode : decide (t.node? place = some .directory) = true := Except.ok.inj h
      exact ⟨place, hlocate, of_decide_eq_true hnode⟩
    · cases h
    · cases h
  · rintro ⟨place, hlocate, hnode⟩
    simp only [hlocate, hnode]
    rfl

theorem isFile_eq_error_iff {t : FileTree} {p : Path} {e : PathError} :
    t.isFile p = .error e ↔ t.locate p = .error .tooLong ∧ e = .tooLong := by
  rw [isFile, look_eq]
  constructor
  · intro h
    split at h
    · rename_i place hlocate
      cases hnode : t.node? place with
      | none =>
          rw [hnode] at h
          cases h
      | some node =>
          rw [hnode] at h
          cases node <;> cases h
    · rename_i hlocate
      cases h
      exact ⟨hlocate, rfl⟩
    · cases h
  · rintro ⟨hlocate, rfl⟩
    simp only [hlocate]
    rfl

/-- Whether every directory of one tree is one of another. -/
structure KeepsDirectories (t t' : FileTree) : Prop where
  home_eq : t'.home = t.home
  directory : ∀ place, t.node? place = some .directory → t'.node? place = some .directory

namespace KeepsDirectories

variable {t t' t'' : FileTree}

theorem refl (t : FileTree) : t.KeepsDirectories t := ⟨rfl, fun _ h => h⟩

theorem trans (h : t.KeepsDirectories t') (h' : t'.KeepsDirectories t'') :
    t.KeepsDirectories t'' :=
  ⟨h'.home_eq.trans h.home_eq, fun place hplace => h'.directory place (h.directory place hplace)⟩

theorem walk (h : t.KeepsDirectories t') {place found : Place} {parts : List Text}
    (hwalk : t.walk place parts = .ok found) : t'.walk place parts = .ok found := by
  induction parts generalizing place with
  | nil => exact hwalk
  | cons part rest ih =>
      obtain ⟨hnode, hbytes, hrest⟩ := walk_cons_eq_ok hwalk
      rw [walk_cons, h.directory place hnode]
      simp only [Nat.not_lt_of_le hbytes, if_false]
      exact ih hrest

theorem locate (h : t.KeepsDirectories t') {p : Path} {place : Place}
    (hlocate : t.locate p = .ok place) : t'.locate p = .ok place := by
  obtain ⟨husable, hwalk⟩ := locate_eq_ok_iff.mp hlocate
  refine locate_eq_ok_iff.mpr ⟨husable, ?_⟩
  rw [h.home_eq]
  exact h.walk hwalk

theorem walk_tooLong (h : t.KeepsDirectories t') {place : Place} {parts : List Text}
    (hwalk : t.walk place parts = .error .tooLong) : t'.walk place parts = .error .tooLong := by
  induction parts generalizing place with
  | nil => cases hwalk
  | cons part rest ih =>
      rw [walk_cons] at hwalk ⊢
      split at hwalk
      · cases hwalk
      · cases hwalk
      · rename_i hnode
        rw [h.directory place hnode]
        dsimp only
        split at hwalk
        · rename_i hbytes
          rw [if_pos hbytes]
        · rename_i hbytes
          rw [if_neg hbytes]
          exact ih hwalk

theorem locate_tooLong (h : t.KeepsDirectories t') {p : Path}
    (hlocate : t.locate p = .error .tooLong) : t'.locate p = .error .tooLong := by
  simp only [FileTree.locate] at hlocate ⊢
  split at hlocate
  · cases hlocate
  · split at hlocate
    · cases hlocate
    · split at hlocate
      · rename_i hcode hzero hlong
        rw [if_neg hcode, if_neg hzero, if_pos hlong]
      · rename_i hcode hzero hlong
        rw [if_neg hcode, if_neg hzero, if_neg hlong, h.home_eq]
        exact h.walk_tooLong hlocate

theorem exists_isFile (h : t.KeepsDirectories t') {p : Path} {b : Bool}
    (hfile : t'.isFile p = .ok b) : ∃ b, t.isFile p = .ok b := by
  cases hasked : t.isFile p with
  | ok b => exact ⟨b, rfl⟩
  | error e =>
      obtain ⟨hlong, _⟩ := isFile_eq_error_iff.mp hasked
      have herror := isFile_eq_error_iff.mpr ⟨h.locate_tooLong hlong, rfl⟩
      rw [hfile] at herror
      cases herror

theorem put {place : Place} {node : FileNode} (hne : place ≠ [])
    (hplace : t.node? place = some .directory → node = .directory) :
    t.KeepsDirectories (t.put place node) := by
  refine ⟨rfl, fun other hother => ?_⟩
  rw [node?_put _ hne]
  split
  · rename_i heq
    rw [hplace (heq ▸ hother)]
  · exact hother

end KeepsDirectories

/-- Trees with the same directories. -/
structure SameDirectories (t t' : FileTree) : Prop where
  forth : t.KeepsDirectories t'
  back : t'.KeepsDirectories t

namespace SameDirectories

variable {t t' t'' : FileTree}

theorem refl (t : FileTree) : t.SameDirectories t := ⟨.refl t, .refl t⟩

theorem trans (h : t.SameDirectories t') (h' : t'.SameDirectories t'') : t.SameDirectories t'' :=
  ⟨h.forth.trans h'.forth, h'.back.trans h.back⟩

theorem put_file {place : Place} (hplace : t.node? place ≠ some .directory)
    (bytes : List UInt8) : t.SameDirectories (t.put place (.file bytes)) := by
  have hne := ne_nil_of_ne_directory hplace
  refine ⟨.put hne fun h => absurd h hplace, rfl, ?_⟩
  intro other hother
  rw [node?_put _ hne] at hother
  split at hother
  · cases hother
  · exact hother

theorem read?_congr (h : t.SameDirectories t') {p : Path}
    (hnode : t'.node? (p.place t.home) = t.node? (p.place t.home)) : t'.read? p = t.read? p := by
  have hnone {t : FileTree} (hlocate : ∀ place, t.locate p ≠ .ok place) : t.read? p = none := by
    rw [read?, look_eq]
    split
    · rename_i hlook
      split at hlook
      · exact absurd ‹_› (hlocate _)
      · cases hlook
      · cases hlook
    · rfl
  cases hlocate : t.locate p with
  | ok place =>
      rw [← locate_eq_ok hlocate] at hnode
      simp only [read?, look_eq, hlocate, h.forth.locate hlocate, hnode]
  | error e =>
      have hfails : ∀ place, t.locate p ≠ .ok place := by simp [hlocate]
      rw [hnone hfails, hnone fun place hplace => hfails place (h.back.locate hplace)]

end SameDirectories

/-- Whether the start is a directory and everything stands in a directory. -/
structure WellFormed (t : FileTree) : Prop where
  home_directory : t.node? t.home = some .directory
  parent_directory : ∀ place node, t.node? place = some node →
    t.node? place.dropLast = some .directory

namespace WellFormed

variable {t : FileTree}

/-- Nothing stands below a place without a directory. -/
theorem node?_below (h : t.WellFormed) {place : Place} (hplace : t.node? place ≠ some .directory)
    {rest : List Text} (hrest : rest ≠ []) : t.node? (place ++ rest) = none := by
  induction rest generalizing place with
  | nil => exact absurd rfl hrest
  | cons part rest ih =>
      have hchild : t.node? (place ++ [part]) = none := by
        cases hnode : t.node? (place ++ [part]) with
        | none => rfl
        | some node =>
            have hparent := h.parent_directory _ _ hnode
            rw [List.dropLast_concat] at hparent
            exact absurd hparent hplace
      rw [List.append_cons]
      cases rest with
      | nil => simpa using hchild
      | cons next rest => exact ih (by simp [hchild]) (List.cons_ne_nil _ _)

theorem directory_above (h : t.WellFormed) {place : Place} {rest : List Text} (hrest : rest ≠ [])
    (hnode : t.node? (place ++ rest) ≠ none) : t.node? place = some .directory :=
  Decidable.byContradiction fun hplace => hnode (h.node?_below hplace hrest)

theorem walk (h : t.WellFormed) {place found : Place} {parts : List Text}
    (hplace : t.node? place.dropLast = some .directory) (hwalk : t.walk place parts = .ok found) :
    t.node? found.dropLast = some .directory := by
  induction parts generalizing place with
  | nil =>
      rw [← Except.ok.inj hwalk]
      exact hplace
  | cons part rest ih =>
      obtain ⟨hnode, _, hrest⟩ := walk_cons_eq_ok hwalk
      refine ih ?_ hrest
      rw [Path.advance]
      split
      · exact h.parent_directory _ _ (h.parent_directory _ _ hnode)
      · rw [List.dropLast_concat]
        exact hnode

theorem locate (h : t.WellFormed) {p : Path} {place : Place} (hlocate : t.locate p = .ok place) :
    t.node? place.dropLast = some .directory := by
  obtain ⟨_, hwalk⟩ := locate_eq_ok_iff.mp hlocate
  refine h.walk ?_ hwalk
  split
  · rfl
  · exact h.parent_directory _ _ h.home_directory

theorem walk_below (h : t.WellFormed) {place : Place} {rest : List Text}
    (hclimb : Path.climb ∉ rest) (hnode : t.node? (place ++ rest) ≠ none) :
    t.walk place rest = .ok (place ++ rest) ∨ t.walk place rest = .error .tooLong := by
  induction rest generalizing place with
  | nil => exact Or.inl (by rw [FileTree.walk, List.append_nil])
  | cons part rest ih =>
      have hplace := h.directory_above (List.cons_ne_nil _ _) hnode
      have hpart : part ≠ Path.climb := Ne.symm (List.ne_of_not_mem_cons hclimb)
      rw [walk_cons, hplace]
      dsimp only
      rw [List.append_cons] at hnode
      rw [Path.advance, if_neg hpart, List.append_cons place part rest]
      split
      · exact Or.inr rfl
      · exact ih (List.not_mem_of_not_mem_cons hclimb) hnode

theorem put (h : t.WellFormed) {place : Place} {node : FileNode} (hne : place ≠ [])
    (hparent : t.node? place.dropLast = some .directory)
    (hplace : t.node? place = some .directory → node = .directory) :
    (t.put place node).WellFormed := by
  have hkept := KeepsDirectories.put hne hplace
  refine ⟨hkept.directory _ h.home_directory, ?_⟩
  intro other node' hnode
  apply hkept.directory
  rw [node?_put _ hne] at hnode
  split at hnode
  · rename_i heq
    rw [heq]
    exact hparent
  · exact h.parent_directory _ _ hnode

theorem node?_clear_file (h : t.WellFormed) {place : Place} {bytes : List UInt8}
    (hfile : t.node? place = some (.file bytes)) (other : Place) :
    (t.clear place).node? other = if other = place then none else t.node? other := by
  have hplace : t.node? place ≠ some .directory := by simp [hfile]
  rw [node?_clear _ (ne_nil_of_ne_directory hplace)]
  by_cases hsame : other = place
  · rw [if_pos hsame, if_pos (hsame ▸ List.prefix_rfl)]
  · rw [if_neg hsame]
    split
    · rename_i hbelow
      obtain ⟨rest, rfl⟩ := hbelow
      have hrest : rest ≠ [] := by
        rintro rfl
        exact hsame (List.append_nil place)
      exact (h.node?_below hplace hrest).symm
    · rfl

theorem clear_file (h : t.WellFormed) {place : Place} {bytes : List UInt8}
    (hfile : t.node? place = some (.file bytes)) : (t.clear place).WellFormed := by
  have hkept : ∀ other, t.node? other = some .directory →
      (t.clear place).node? other = some .directory := by
    intro other hother
    rw [h.node?_clear_file hfile, if_neg]
    · exact hother
    · rintro rfl
      rw [hfile] at hother
      cases hother
  refine ⟨hkept _ h.home_directory, ?_⟩
  intro other node hnode
  rw [h.node?_clear_file hfile] at hnode
  split at hnode
  · cases hnode
  · exact hkept _ (h.parent_directory _ _ hnode)

end WellFormed

/-- Whether walks can enter everything in a tree. -/
def Enterable (t : FileTree) : Prop :=
  ∀ place node, t.node? place = some node → ∀ name ∈ place, Path.IsEnterable name

/-- A path below another leads to what stands there, unless it is too long. -/
theorem WellFormed.locate_below {t : FileTree} (hwell : t.WellFormed) {p : Path} {place : Place}
    (hlocate : t.locate p = .ok place) {rest : List Text}
    (hrest : ∀ name ∈ rest, Path.IsEnterable name) (hnode : t.node? (place ++ rest) ≠ none) :
    t.locate (p.below rest) = .ok (place ++ rest) ∨ t.locate (p.below rest) = .error .tooLong := by
  obtain ⟨⟨hcode, hzero, _⟩, hwalk⟩ := locate_eq_ok_iff.mp hlocate
  have hallowed : (p.below rest).toText.all Path.isAllowed = true := by
    obtain ⟨hroot, hparts⟩ :=
      Path.all_isAllowed_toText.mp (Path.all_isAllowed_iff.mpr ⟨hcode, hzero⟩)
    refine Path.all_isAllowed_toText.mpr ⟨hroot, fun part hpart => ?_⟩
    rcases List.mem_append.mp hpart with hpart | hpart
    · exact hparts part hpart
    · exact (hrest part hpart).2
  rcases t.locate_of_isAllowed hallowed with hlong | hbelow
  · exact Or.inr hlong
  · have hwalked : t.locate (p.below rest) = t.walk place rest :=
      hbelow.trans (walk_append hwalk rest)
    rw [hwalked]
    exact hwell.walk_below (fun hmem => (hrest _ hmem).1 rfl) hnode

theorem Enterable.locate_below {t : FileTree} (h : t.Enterable) (hwell : t.WellFormed) {p : Path}
    {place : Place} (hlocate : t.locate p = .ok place) {rest : List Text} {node : FileNode}
    (hnode : t.node? (place ++ rest) = some node) :
    t.locate (p.below rest) = .ok (place ++ rest) ∨ t.locate (p.below rest) = .error .tooLong :=
  hwell.locate_below hlocate
    (fun name hname => h _ _ hnode name (List.mem_append_right place hname)) (by simp [hnode])

/-- Paths lead only to names that can be entered. -/
theorem Enterable.of_locate {t : FileTree} (h : t.Enterable) (hwell : t.WellFormed) {p : Path}
    {place : Place} (hlocate : t.locate p = .ok place) : ∀ name ∈ place, Path.IsEnterable name := by
  obtain ⟨⟨hcode, hzero, _⟩, _⟩ := locate_eq_ok_iff.mp hlocate
  obtain ⟨_, hparts⟩ := Path.all_isAllowed_toText.mp (Path.all_isAllowed_iff.mpr ⟨hcode, hzero⟩)
  have hfold (parts : List Text) (hparts : ∀ part ∈ parts, part.all Path.isAllowed = true)
      (start : Place) (hstart : ∀ name ∈ start, Path.IsEnterable name) :
      ∀ name ∈ parts.foldl Path.advance start, Path.IsEnterable name := by
    induction parts generalizing start with
    | nil => exact hstart
    | cons part rest ih =>
        refine ih (fun part hpart => hparts part (List.mem_cons_of_mem _ hpart)) _ ?_
        intro name hname
        rw [Path.advance] at hname
        split at hname
        · exact hstart name (List.dropLast_subset _ hname)
        · rename_i hclimb
          rcases List.mem_append.mp hname with hname | hname
          · exact hstart name hname
          · rw [List.mem_singleton.mp hname]
            exact ⟨hclimb, hparts part List.mem_cons_self⟩
  rw [locate_eq_ok hlocate]
  refine hfold p.parts hparts _ ?_
  split
  · exact fun name hname => absurd hname List.not_mem_nil
  · exact h _ _ hwell.home_directory

/-- Whether a tree has everything that another has, and besides that only further directories. -/
structure Extends (t t' : FileTree) : Prop where
  home_eq : t'.home = t.home
  node : ∀ place node, t.node? place = some node → t'.node? place = some node
  new : ∀ place, t.node? place = none →
    t'.node? place = none ∨ t'.node? place = some .directory
  wellFormed : t.WellFormed → t'.WellFormed
  enterable : t.WellFormed → t.Enterable → t'.Enterable

namespace Extends

variable {t t' t'' : FileTree}

theorem refl (t : FileTree) : t.Extends t :=
  ⟨rfl, fun _ _ h => h, fun _ h => Or.inl h, id, fun _ => id⟩

theorem trans (h : t.Extends t') (h' : t'.Extends t'') : t.Extends t'' := by
  refine ⟨h'.home_eq.trans h.home_eq, fun place node hnode => h'.node _ _ (h.node _ _ hnode), ?_,
    h'.wellFormed ∘ h.wellFormed,
    fun hwell => h'.enterable (h.wellFormed hwell) ∘ h.enterable hwell⟩
  intro place hplace
  rcases h.new place hplace with hnone | hdirectory
  · exact h'.new place hnone
  · exact Or.inr (h'.node _ _ hdirectory)

theorem keepsDirectories (h : t.Extends t') : t.KeepsDirectories t' :=
  ⟨h.home_eq, fun _ hplace => h.node _ _ hplace⟩

theorem node?_of_file (h : t.Extends t') {place : Place} {bytes : List UInt8}
    (hfile : t'.node? place = some (.file bytes)) : t.node? place = some (.file bytes) := by
  cases hnode : t.node? place with
  | none => rcases h.new place hnode with hnone | hdirectory <;> simp_all
  | some node =>
      rw [← hfile]
      exact (h.node _ _ hnode).symm

end Extends

/-- Whether there is a file at a place. -/
def hasFile (t : FileTree) (place : Place) : Bool :=
  match t.node? place with
  | some (.file _) => true
  | _ => false

/-- The bytes of the file at a place. -/
def bytesAt (t : FileTree) (place : Place) : List UInt8 :=
  match t.node? place with
  | some (.file bytes) => bytes
  | _ => []

theorem hasFile_iff {t : FileTree} {place : Place} :
    t.hasFile place = true ↔ ∃ bytes, t.node? place = some (.file bytes) := by
  rw [hasFile]
  split
  · rename_i bytes hnode
    simp [hnode]
  · rename_i hother
    simp only [Bool.false_eq_true, false_iff, not_exists]
    exact hother

theorem node?_of_hasFile {t : FileTree} {place : Place} (h : t.hasFile place = true) :
    t.node? place = some (.file (t.bytesAt place)) := by
  obtain ⟨bytes, hbytes⟩ := hasFile_iff.mp h
  rw [bytesAt, hbytes]

theorem WellFormed.isFile_below {t : FileTree} (hwell : t.WellFormed) {p : Path} {place : Place}
    (hlocate : t.locate p = .ok place) {rest : List Text}
    (hrest : ∀ name ∈ rest, Path.IsEnterable name) {found : Bool}
    (h : t.isFile (p.below rest) = .ok found) : found = t.hasFile (place ++ rest) := by
  rw [Bool.eq_iff_iff]
  constructor
  · rintro rfl
    obtain ⟨other, bytes, hother, hnode⟩ := isFile_eq_true_iff.mp h
    have hclimb : Path.climb ∉ rest := fun hmem => (hrest _ hmem).1 rfl
    rw [locate_eq_ok hother, Path.place_below _ _ hclimb, ← locate_eq_ok hlocate] at hnode
    exact hasFile_iff.mpr ⟨bytes, hnode⟩
  · intro hfile
    obtain ⟨bytes, hnode⟩ := hasFile_iff.mp hfile
    rcases hwell.locate_below hlocate hrest (by simp [hnode]) with hbelow | hlong
    · have htrue := isFile_eq_true_iff.mpr ⟨_, bytes, hbelow, hnode⟩
      exact Except.ok.inj (h.symm.trans htrue)
    · rw [isFile_eq_error_iff.mpr ⟨hlong, rfl⟩] at h
      cases h

/-- Whether a tree comes from a well-formed one by a change of the file at one place. -/
structure ChangesAt (place : Place) (t t' : FileTree) : Prop where
  same : t.SameDirectories t'
  node : ∀ other, other ≠ place → t'.node? other = t.node? other
  wellFormed : t'.WellFormed

namespace ChangesAt

variable {t t' t'' : FileTree} {p : Path} {place : Place}

theorem refl (h : t.WellFormed) : t.ChangesAt place t := ⟨.refl t, fun _ _ => rfl, h⟩

theorem put (h : t.WellFormed) (hlocate : t.locate p = .ok place)
    (hplace : t.node? place ≠ some .directory) (bytes : List UInt8) :
    t.ChangesAt (p.place t.home) (t.put place (.file bytes)) := by
  have hne := ne_nil_of_ne_directory hplace
  refine ⟨.put_file hplace bytes, ?_, h.put hne (h.locate hlocate) fun h => absurd h hplace⟩
  intro other hother
  rw [node?_put _ hne, if_neg]
  rwa [locate_eq_ok hlocate]

theorem clear (h : t.WellFormed) (hlocate : t.locate p = .ok place) {bytes : List UInt8}
    (hfile : t.node? place = some (.file bytes)) :
    t.ChangesAt (p.place t.home) (t.clear place) := by
  refine ⟨⟨⟨rfl, ?_⟩, rfl, ?_⟩, ?_, h.clear_file hfile⟩
  · intro other hother
    rw [h.node?_clear_file hfile, if_neg]
    · exact hother
    · rintro rfl
      rw [hfile] at hother
      cases hother
  · intro other hother
    rw [h.node?_clear_file hfile] at hother
    split at hother
    · cases hother
    · exact hother
  · intro other hother
    rw [h.node?_clear_file hfile, if_neg]
    rwa [locate_eq_ok hlocate]

end ChangesAt

/-- Whether trees differ at most at one place, and in directories that are new. -/
structure Touches (place : Place) (t t' : FileTree) : Prop where
  home_eq : t'.home = t.home
  node : ∀ other, other ≠ place → t'.node? other = t.node? other ∨
    t.node? other = none ∧ t'.node? other = some .directory
  wellFormed : t'.WellFormed

theorem ChangesAt.touches {t t' : FileTree} {place : Place} (h : t.ChangesAt place t') :
    t.Touches place t' :=
  ⟨h.same.forth.home_eq, fun other hother => Or.inl (h.node other hother), h.wellFormed⟩

theorem Extends.touches {t t' : FileTree} (h : t.Extends t') (hwell : t.WellFormed)
    (place : Place) : t.Touches place t' := by
  refine ⟨h.home_eq, fun other _ => ?_, h.wellFormed hwell⟩
  cases hnode : t.node? other with
  | some node => exact Or.inl (h.node other node hnode)
  | none => exact (h.new other hnode).imp_right fun hdirectory => ⟨rfl, hdirectory⟩

theorem Touches.trans {t t' t'' : FileTree} {place : Place} (h : t.Touches place t')
    (h' : t'.Touches place t'') : t.Touches place t'' := by
  refine ⟨h'.home_eq.trans h.home_eq, fun other hother => ?_, h'.wellFormed⟩
  rcases h.node other hother with hsame | ⟨hnone, hnew⟩
  · rw [← hsame]
    exact h'.node other hother
  · rcases h'.node other hother with hsame' | ⟨hnone', _⟩
    · exact Or.inr ⟨hnone, hsame'.trans hnew⟩
    · rw [hnew] at hnone'
      cases hnone'

namespace Change

variable {t t' : FileTree} {p : Path}

theorem write_eq_ok_iff {bytes : List UInt8} :
    (write p bytes).run t = .ok () t' ↔
      ∃ place, t.locate p = .ok place ∧ t.node? place ≠ some .directory ∧
        t' = t.put place (.file bytes) := by
  simp only [write, run_bind_eq_ok_iff, EStateM.run_get, run_ofExcept_eq_ok_iff]
  constructor
  · rintro ⟨_, _, hget, place, _, ⟨hlocate, rfl⟩, h⟩
    cases hget
    refine ⟨place, hlocate, ?_⟩
    split at h
    · cases h
    · rename_i hnode
      cases h
      exact ⟨fun hdirectory => hnode hdirectory, rfl⟩
  · rintro ⟨place, hlocate, hnode, rfl⟩
    refine ⟨t, t, rfl, place, t, ⟨hlocate, rfl⟩, ?_⟩
    split
    · rename_i hdirectory
      exact absurd hdirectory hnode
    · rfl

theorem discard_eq_ok_iff :
    (discard p).run t = .ok () t' ↔
      (t.isFile p = .ok false ∧ t' = t) ∨
        ∃ place bytes, t.locate p = .ok place ∧ t.node? place = some (.file bytes) ∧
          t' = t.clear place := by
  simp only [discard, run_bind_eq_ok_iff, EStateM.run_get, run_ofExcept_eq_ok_iff]
  constructor
  · rintro ⟨_, _, hget, found, _, ⟨hfound, rfl⟩, h⟩
    cases hget
    cases found with
    | false =>
        cases h
        exact Or.inl ⟨hfound, rfl⟩
    | true =>
        obtain ⟨place, bytes, hlocate, hnode⟩ := isFile_eq_true_iff.mp hfound
        simp only [if_true, run_bind_eq_ok_iff, run_ofExcept_eq_ok_iff] at h
        obtain ⟨_, _, ⟨hlocate', rfl⟩, hset⟩ := h
        rw [hlocate] at hlocate'
        cases hlocate'
        cases hset
        exact Or.inr ⟨place, bytes, hlocate, hnode, rfl⟩
  · rintro (⟨hfound, rfl⟩ | ⟨place, bytes, hlocate, hnode, rfl⟩)
    · exact ⟨t', t', rfl, false, t', ⟨hfound, rfl⟩, rfl⟩
    · refine ⟨t, t, rfl, true, t, ⟨isFile_eq_true_iff.mpr ⟨place, bytes, hlocate, hnode⟩, rfl⟩, ?_⟩
      simp only [if_true, run_bind_eq_ok_iff, run_ofExcept_eq_ok_iff]
      exact ⟨place, t, ⟨hlocate, rfl⟩, rfl⟩

theorem writeText_eq_ok_iff {text : Text} :
    (writeText p text).run t = .ok () t' ↔
      ∃ place, t.locate p = .ok place ∧ t.node? place ≠ some .directory ∧
        text.any CodePoint.isSurrogate = false ∧
        t' = t.put place (.file (Text.Utf8.encode text)) := by
  rw [writeText, run_bind_eq_ok_iff]
  dsimp only
  constructor
  · rintro ⟨_, t₁, hempty, h⟩
    obtain ⟨place, hlocate, hplace, rfl⟩ := write_eq_ok_iff.mp hempty
    split at h
    · obtain ⟨_, _, hthrow, _⟩ := run_bind_eq_ok_iff.mp h
      cases hthrow
    · rename_i hbytes
      obtain ⟨place', hlocate', _, rfl⟩ := write_eq_ok_iff.mp h
      rw [(SameDirectories.put_file hplace []).forth.locate hlocate] at hlocate'
      cases hlocate'
      exact ⟨place, hlocate, hplace, by simpa using hbytes, put_put t place _ _⟩
  · rintro ⟨place, hlocate, hplace, hbytes, rfl⟩
    refine ⟨(), _, write_eq_ok_iff.mpr ⟨place, hlocate, hplace, rfl⟩, ?_⟩
    rw [if_neg (by simp [hbytes])]
    refine write_eq_ok_iff.mpr ⟨place, ?_, ?_, (put_put t place _ _).symm⟩
    · exact (SameDirectories.put_file hplace []).forth.locate hlocate
    · rw [node?_put _ (ne_nil_of_ne_directory hplace), if_pos rfl]
      simp

theorem read?_eq_of_locate {place : Place} (hlocate : t.locate p = .ok place)
    {bytes : List UInt8} (hnode : t.node? place = some (.file bytes)) :
    t.read? p = some bytes := by
  simp only [read?, look_eq, hlocate, hnode]

theorem appendText_eq_ok_iff {text : Text} :
    (appendText p text).run t = .ok () t' ↔
      ∃ place, t.locate p = .ok place ∧ t.node? place ≠ some .directory ∧
        text.any CodePoint.isSurrogate = false ∧
        t' = t.put place (.file ((t.read? p).getD [] ++ Text.Utf8.encode text)) := by
  rw [appendText, run_bind_eq_ok_iff]
  dsimp only
  constructor
  · rintro ⟨_, _, hget, h⟩
    cases hget
    split at h
    · obtain ⟨_, _, hthrow, _⟩ := run_bind_eq_ok_iff.mp h
      cases hthrow
    · rename_i hbytes
      obtain ⟨place, hlocate, hplace, rfl⟩ := write_eq_ok_iff.mp h
      exact ⟨place, hlocate, hplace, by simpa using hbytes, rfl⟩
  · rintro ⟨place, hlocate, hplace, hbytes, rfl⟩
    refine ⟨t, t, rfl, ?_⟩
    rw [if_neg (by simp [hbytes])]
    exact write_eq_ok_iff.mpr ⟨place, hlocate, hplace, rfl⟩

theorem run_makeDirectory (t : FileTree) (p : Path) :
    (makeDirectory p).run t =
      match t.locate p with
      | .error e => .error e t
      | .ok place =>
        match t.node? place with
        | some _ => .error .occupied t
        | none => .ok () (t.put place .directory) := by
  cases hlocate : t.locate p with
  | error e =>
      simp only [makeDirectory, EStateM.run_bind, EStateM.run_get, hlocate]
      rfl
  | ok place =>
      have hfound : (ofExcept (.ok place) : EStateM PathError FileTree Place).run t =
        .ok place t := rfl
      simp only [makeDirectory, EStateM.run_bind, EStateM.run_get, hlocate, hfound]
      cases t.node? place <;> rfl

theorem run_tryCatch {x : Change} {handle : PathError → Change} :
    (tryCatch x handle : Change).run t =
      match x.run t with
      | .ok a t' => .ok a t'
      | .error e t' => (handle e).run t' := by
  change EStateM.tryCatch x handle t = _
  delta EStateM.tryCatch
  rw [EStateM.run]
  cases x t <;> rfl

theorem extends_put_directory {place : Place} (hlocate : t.locate p = .ok place)
    (hnone : t.node? place = none) : t.Extends (t.put place .directory) := by
  have hne := ne_nil_of_node?_eq_none hnone
  refine ⟨rfl, ?_, ?_, ?_, ?_⟩
  · intro other node hnode
    rw [node?_put _ hne, if_neg]
    · exact hnode
    · rintro rfl
      rw [hnone] at hnode
      cases hnode
  · intro other hother
    rw [node?_put _ hne]
    split
    · exact Or.inr rfl
    · exact Or.inl hother
  · intro hwell
    exact hwell.put hne (hwell.locate hlocate) fun _ => rfl
  · intro hwell henter other node hnode
    rw [node?_put _ hne] at hnode
    split at hnode
    · rename_i heq
      rw [heq]
      exact henter.of_locate hwell hlocate
    · exact henter _ _ hnode

theorem ensureDirectory_spec (t : FileTree) (p : Path) :
    match (ensureDirectory p).run t with
    | .ok _ t' => t.Extends t' ∧ t'.isDirectory p = .ok true
    | .error _ t' => t' = t := by
  have hretry (e : PathError) : match (do
        let t ← get
        if ← ofExcept (t.isDirectory p) then return
        throw e : Change).run t with
      | .ok _ t' => t.Extends t' ∧ t'.isDirectory p = .ok true
      | .error _ t' => t' = t := by
    cases hfound : t.isDirectory p with
    | error e' =>
        simp only [EStateM.run_bind, EStateM.run_get, hfound]
        rfl
    | ok found =>
        have hasked : (ofExcept (.ok found) : EStateM PathError FileTree Bool).run t =
          .ok found t := rfl
        simp only [EStateM.run_bind, EStateM.run_get, hfound, hasked]
        cases found with
        | false => rfl
        | true => exact ⟨Extends.refl t, hfound⟩
  rw [ensureDirectory, run_tryCatch, run_makeDirectory]
  cases hlocate : t.locate p with
  | error e => exact hretry e
  | ok place =>
      dsimp only
      cases hnode : t.node? place with
      | some node => exact hretry .occupied
      | none =>
          have hextends := extends_put_directory hlocate hnode
          refine ⟨hextends, isDirectory_eq_true_iff.mpr ⟨place, ?_, ?_⟩⟩
          · exact hextends.keepsDirectories.locate hlocate
          · rw [node?_put _ (ne_nil_of_node?_eq_none hnode), if_pos rfl]

theorem ensureAll_spec (root : Text) (parts : List Text) (t : FileTree) :
    match (ensureAll root parts).run t with
    | .ok _ t' => t.Extends t' ∧
        (parts ≠ [] → t'.isDirectory { root, parts := parts.reverse } = .ok true)
    | .error _ t' => t.Extends t' := by
  induction parts generalizing t with
  | nil => exact ⟨Extends.refl t, fun h => absurd rfl h⟩
  | cons part above ih =>
      rw [ensureAll, run_tryCatch]
      have hfirst := ensureDirectory_spec t { root, parts := (part :: above).reverse }
      cases hrun : (ensureDirectory { root, parts := (part :: above).reverse }).run t with
      | ok a t' =>
          rw [hrun] at hfirst
          exact ⟨hfirst.1, fun _ => hfirst.2⟩
      | error e t' =>
          rw [hrun] at hfirst
          obtain rfl : t' = t := hfirst
          by_cases hmissing : e = .missing
          · -- the directories above are made first
            subst hmissing
            dsimp only
            rw [EStateM.run_bind]
            have habove := ih t'
            cases hrun₁ : (ensureAll root above).run t' with
            | error e₁ t₁ =>
                rw [hrun₁] at habove
                exact habove
            | ok a₁ t₁ =>
                rw [hrun₁] at habove
                have hagain := ensureDirectory_spec t₁ { root, parts := (part :: above).reverse }
                dsimp only
                cases hrun₂ :
                    (ensureDirectory { root, parts := (part :: above).reverse }).run t₁ with
                | ok a₂ t₂ =>
                    rw [hrun₂] at hagain
                    exact ⟨habove.1.trans hagain.1, fun _ => hagain.2⟩
                | error e₂ t₂ =>
                    rw [hrun₂] at hagain
                    obtain rfl : t₂ = t₁ := hagain
                    exact habove.1
          · cases e with
            | missing => exact absurd rfl hmissing
            | _ => exact Extends.refl t'

/-- Whether there is nothing to make at a path. -/
def Made (t : FileTree) (p : Path) : Prop := p.parts = [] ∨ t.isDirectory p = .ok true

theorem Made.locate (hmade : Made t p) {written : Text} (hp : p = Path.ofText written) :
    t.locate p = .ok (p.place t.home) := by
  rcases hmade with hparts | hdirectory
  · have hroot : p.root = [] ∨ p.root = Text.ofString "/" ∨ p.root = Text.ofString "//" := by
      rw [hp]
      exact Path.rootOf_cases written
    have husable : p.IsUsable := by
      obtain ⟨root, parts⟩ := p
      obtain rfl : parts = [] := hparts
      rcases hroot with rfl | rfl | rfl <;> exact ⟨rfl, by decide, by decide⟩
    refine locate_eq_ok_iff.mpr ⟨husable, ?_⟩
    rw [Path.place, hparts]
    rfl
  · obtain ⟨place, hlocate, _⟩ := isDirectory_eq_true_iff.mp hdirectory
    rw [hlocate, locate_eq_ok hlocate]

theorem Made.mono (h : t.KeepsDirectories t') (hmade : Made t p) : Made t' p := by
  refine hmade.imp_right fun hdirectory => ?_
  obtain ⟨place, hlocate, hnode⟩ := isDirectory_eq_true_iff.mp hdirectory
  exact isDirectory_eq_true_iff.mpr ⟨place, h.locate hlocate, h.directory place hnode⟩

theorem makeDirectories_eq_ok (h : (makeDirectories p).run t = .ok () t') :
    t.Extends t' ∧ Made t' p := by
  have hspec := ensureAll_spec p.root p.parts.reverse t
  rw [makeDirectories] at h
  rw [h] at hspec
  refine ⟨hspec.1, ?_⟩
  by_cases hparts : p.parts = []
  · exact Or.inl hparts
  · exact Or.inr (by simpa using hspec.2 (by simpa using hparts))

theorem makeDirectories_of_made (h : Made t p) : (makeDirectories p).run t = .ok () t := by
  rcases h with hparts | hdirectory
  · rw [makeDirectories, hparts]
    rfl
  · obtain ⟨place, hlocate, hnode⟩ := isDirectory_eq_true_iff.mp hdirectory
    have hensure : (ensureDirectory p).run t = .ok () t := by
      rw [ensureDirectory, run_tryCatch, run_makeDirectory, hlocate]
      dsimp only
      rw [hnode]
      dsimp only
      simp only [EStateM.run_bind, EStateM.run_get, hdirectory]
      rfl
    cases hparts : p.parts.reverse with
    | nil =>
        rw [makeDirectories, hparts]
        rfl
    | cons part above =>
        have hp : ({ root := p.root, parts := (part :: above).reverse } : Path) = p := by
          rw [← hparts, List.reverse_reverse]
        rw [makeDirectories, hparts, ensureAll, run_tryCatch, hp, hensure]

end Change

end FileTree

end HostBindings
