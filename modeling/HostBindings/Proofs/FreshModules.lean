import HostBindings.Proofs.RunPhases
import Mathlib.Order.Fin.Basic

/-!
The modules of a run into an empty destination. The files form a tree: one for every module with a
unit below it that ended well, and each lists the files of the modules right below its own.
-/

namespace HostBindings.ModuleTree

variable {m : ModuleTree}

/-- The modules of the units that ended well. -/
def okModules (units : List SourceFile) (results : List UnitResult) : List Place :=
  ((units.zip results).filter fun e => e.2.ok).map fun e => e.1.directory ++ [stem e.1.path]

theorem mem_okModules {units : List SourceFile} {results : List UnitResult} {o : Place} :
    o ∈ okModules units results ↔ ∃ unit result, (unit, result) ∈ units.zip results ∧
      result.ok = true ∧ unit.directory ++ [stem unit.path] = o := by
  simp [okModules, and_assoc]

/-- Whether a module is one of a unit that ended well, or is above one. -/
def Alive (oks : List Place) (q : Place) : Prop := ∃ o ∈ oks, q <+: o

instance (oks : List Place) (q : Place) : Decidable (Alive oks q) :=
  inferInstanceAs (Decidable (∃ o ∈ oks, q <+: o))

theorem Alive.of_mem {oks : List Place} {o : Place} (h : o ∈ oks) : Alive oks o :=
  ⟨o, h, List.prefix_rfl⟩

theorem Alive.above {oks : List Place} {q : Place} {name : Text} (h : Alive oks (q ++ [name])) :
    Alive oks q := by
  obtain ⟨o, ho, hunder⟩ := h
  exact ⟨o, ho, (List.prefix_append q [name]).trans hunder⟩

theorem Alive.exists_below {oks : List Place} {q o : Place} (ho : o ∈ oks) (hunder : q <+: o)
    (hq : q ∉ oks) : ∃ name, q ++ [name] <+: o := by
  obtain ⟨rest, rfl⟩ := hunder
  cases rest with
  | nil =>
      rw [List.append_nil] at ho
      exact absurd ho hq
  | cons name rest => exact ⟨name, rest, by simp⟩

/-- The file of a module, from the destination. -/
def filePlace (oks : List Place) (q : Place) : Place :=
  if q ∈ oks then besidePlace q else ownPlace q

/-- The file of a module, from the directory above it. -/
def fileParts (oks : List Place) (q : Place) (name : Text) : List Text :=
  if q ++ [name] ∈ oks then [name ++ moduleEnding] else [name, parentName]

theorem filePlace_concat (oks : List Place) (q : Place) (name : Text) :
    filePlace oks (q ++ [name]) = q ++ fileParts oks q name := by
  rw [filePlace, fileParts]
  split
  · exact besidePlace_concat q name
  · simp [ownPlace]

/-- The modules right below a module, among those that are noted. -/
def kids (m : ModuleTree) (oks : List Place) (children : Children) (q : Place) : List Text :=
  (children.namesIn (m.dest.below q)).filter fun name => Alive oks (q ++ [name])

/-- The entries in the file of a module. -/
def moduleEntries (m : ModuleTree) (oks : List Place) (children : Children) (q : Place) :
    List Entry :=
  (kids m oks children q).map fun name =>
    { location := Text.join "/" ((if q ∈ oks then [q.getLastD []] else []) ++ fileParts oks q name)
      name := m.options.scopeName name }

/-- What is known of a run into an empty destination. -/
structure Fresh (m : ModuleTree) (base : Place) (oks rs : List Place) (own : Place → Option Text)
    (built last : Session) : Prop where
  listed : ParentsListed m base rs built last
  noted : Noted m built.children
  /-- The only files are those of the units that ended well. -/
  unit_file : ∀ rest, rest ≠ [] →
    (built.files.hasFile (base ++ rest) = true ↔ ∃ o ∈ oks, rest = besidePlace o)
  ne_nil : ∀ o ∈ oks, o ≠ []
  not_mod : ∀ o ∈ oks, o.getLastD [] ≠ Text.ofString "mod"
  directory_name : ∀ o ∈ oks, ∀ part ∈ o.dropLast, Path.IsName part
  slash_not_mem : ∀ o ∈ oks, CodePoint.ofChar '/' ∉ o.getLastD []
  child : ∀ o ∈ oks, ∀ q name, q ++ [name] <+: o → (m.dest.below q, name) ∈ built.children
  own_text : ∀ o ∈ oks, ∃ rust, own (base ++ besidePlace o) = some rust ∧
    rust.any CodePoint.isSurrogate = false ∧
    built.files.node? (base ++ besidePlace o) = some (.file (Text.Utf8.encode rust))
  own_none : ∀ q, own (base ++ ownPlace q) = none

namespace Fresh

variable {base : Place} {oks rs : List Place} {own : Place → Option Text} {built last : Session}

theorem hasFile_besidePlace (h : Fresh m base oks rs own built last) {q : Place} (hq : q ≠ []) :
    built.files.hasFile (base ++ besidePlace q) = true ↔ q ∈ oks := by
  rw [h.unit_file _ (by simp [besidePlace])]
  constructor
  · rintro ⟨o, ho, heq⟩
    rwa [besidePlace_injOn hq (h.ne_nil o ho) heq]
  · exact fun hmem => ⟨q, hmem, rfl⟩

theorem hasFile_ownPlace (h : Fresh m base oks rs own built last) (q : Place) :
    built.files.hasFile (base ++ ownPlace q) = false := by
  rw [Bool.eq_false_iff, ne_eq, h.unit_file _ (by simp [ownPlace])]
  rintro ⟨o, ho, heq⟩
  exact h.not_mod o ho (besidePlace_eq_ownPlace_iff.mp heq.symm).2

theorem isBeside_iff_mem (h : Fresh m base oks rs own built last) {q : Place} :
    isBeside built.files base q = true ↔ q ∈ oks := by
  rw [isBeside_iff]
  constructor
  · rintro ⟨hne, hfile⟩
    exact (h.hasFile_besidePlace hne).mp hfile
  · exact fun hmem => ⟨h.ne_nil q hmem, (h.hasFile_besidePlace (h.ne_nil q hmem)).mpr hmem⟩

theorem listPlace_eq (h : Fresh m base oks rs own built last) (q : Place) :
    listPlace built.files base q = filePlace oks q := by
  simp only [listPlace, filePlace, h.isBeside_iff_mem]

theorem ownPlace_concat (q : Place) (name : Text) :
    ownPlace (q ++ [name]) = q ++ [name, parentName] := by
  simp [ownPlace]

theorem turn_ownPlace (h : Fresh m base oks rs own built last) {names : List Text} {q : Place}
    {t t' : FileTree} (hturn : Turn m rs names base q built.files t t' last.files) :
    t.hasFile (base ++ ownPlace q) = false := by
  have hfile := hturn.unit_file (Text.ofString "mod")
  rw [← parentName_eq] at hfile
  exact hfile.trans (h.hasFile_ownPlace q)

theorem mem_of_hasFile_ownPlace (h : Fresh m base oks rs own built last) {q : Place}
    (hfile : last.files.hasFile (base ++ ownPlace q) = true) : q ∈ rs := by
  refine Decidable.byContradiction fun hmem => ?_
  have hsame := h.listed.lists.hasFile (base ++ ownPlace q) fun r hr heq =>
    hmem (ownPlace_injective (List.append_cancel_left heq) ▸ hr)
  rw [hsame, h.hasFile_ownPlace] at hfile
  cases hfile

theorem isName_of_prefix (h : Fresh m base oks rs own built last) {o q : Place} {name : Text}
    (ho : o ∈ oks) (hunder : q ++ [name] <+: o) (hne : q ++ [name] ∉ oks) :
    Path.IsName name := by
  obtain ⟨inner, hinner⟩ := Alive.exists_below ho hunder hne
  obtain ⟨rest, rfl⟩ := hinner
  refine h.directory_name _ ho name ?_
  rw [List.append_assoc (q ++ [name]), List.dropLast_append_of_ne_nil (by simp)]
  simp

theorem turn_modulePlace? (h : Fresh m base oks rs own built last) {q : Place} {names : List Text}
    {t t' : FileTree} (hturn : Turn m rs names base q built.files t t' last.files) (name : Text) :
    modulePlace? t base q name =
      if q ++ [name] ∈ oks then some [name ++ moduleEnding]
      else if Path.isPart name = true ∧
          last.files.hasFile (base ++ ownPlace (q ++ [name])) = true then
        some [name, parentName]
      else none := by
  have hunit : t.hasFile (base ++ (q ++ [name ++ moduleEnding])) = true ↔ q ++ [name] ∈ oks := by
    rw [hturn.unit_file, ← besidePlace_concat, h.hasFile_besidePlace (by simp)]
  have hparent : t.hasFile (base ++ (q ++ ([name].filter Path.isPart ++ [parentName]))) = true ↔
      Path.isPart name = true ∧ last.files.hasFile (base ++ ownPlace (q ++ [name])) = true := by
    rw [ownPlace_concat, ← hturn.parent_file, List.filter_cons]
    split
    · rename_i hpart
      simp [hpart]
    · rename_i hpart
      have hown := h.turn_ownPlace hturn
      rw [ownPlace] at hown
      simp [hpart, hown]
  rw [modulePlace?]
  simp only [hunit, hparent]

theorem exists_of_hasFile_ownPlace (h : Fresh m base oks rs own built last) {q : Place}
    (hfile : last.files.hasFile (base ++ ownPlace q) = true) :
    q ∉ oks ∧ ∃ name, q ++ [name] ∈ oks ∨
      last.files.hasFile (base ++ ownPlace (q ++ [name])) = true := by
  obtain ⟨t, t', hturn⟩ := h.listed.turn q (h.mem_of_hasFile_ownPlace hfile)
  have hown := h.turn_ownPlace hturn
  have hlater : t'.hasFile (base ++ ownPlace q) = true := by
    rw [FileTree.hasFile, ← hturn.own_stays]
    exact hfile
  cases hturn.listed with
  | nothing _ =>
      rw [hown] at hlater
      cases hlater
  | list hne hchange _ _ =>
      refine ⟨fun hmem => ?_, ?_⟩
      · have hbeside : isBeside t base q = true := by
          rw [hturn.isBeside_eq, h.isBeside_iff_mem]
          exact hmem
        have hother : base ++ ownPlace q ≠ base ++ listPlace t base q := by
          rw [listPlace, if_pos hbeside]
          intro heq
          have habove := (besidePlace_eq_ownPlace_iff.mp (List.append_cancel_left heq).symm).1
          have hlength := congrArg List.length habove
          have hpos := List.length_pos_of_ne_nil (h.ne_nil q hmem)
          rw [List.length_dropLast] at hlength
          omega
        rw [FileTree.hasFile, hchange.node _ hother] at hlater
        exact absurd (hown.symm.trans hlater) Bool.false_ne_true
      · obtain ⟨e, he⟩ := List.exists_mem_of_ne_nil _ hne
        obtain ⟨name, _, parts, hparts, _⟩ := mem_listing.mp he
        rw [h.turn_modulePlace? hturn] at hparts
        refine ⟨name, ?_⟩
        split at hparts
        · exact Or.inl ‹_›
        · exact Or.inr ((Option.ite_none_right_eq_some.mp hparts).1.2)

theorem alive_of_hasFile_ownPlace (h : Fresh m base oks rs own built last) {q : Place}
    (hfile : last.files.hasFile (base ++ ownPlace q) = true) : Alive oks q := by
  obtain ⟨bound, hbound⟩ : ∃ bound, ∀ r ∈ rs, r.length < bound :=
    ⟨rs.flatten.length + 1,
      fun r hr => Nat.lt_succ_of_le (List.sublist_flatten_of_mem hr).length_le⟩
  -- by how much deeper a directory can be: a module of `q` with a file may be a directory again
  induction hdepth : bound - q.length generalizing q with
  | zero =>
      have hlength := hbound q (h.mem_of_hasFile_ownPlace hfile)
      omega
  | succ depth ih =>
      obtain ⟨_, name, hname | hname⟩ := h.exists_of_hasFile_ownPlace hfile
      · exact (Alive.of_mem hname).above
      · refine (ih hname ?_).above
        rw [List.length_append, List.length_singleton]
        omega

theorem hasFile_ownPlace_of_alive (h : Fresh m base oks rs own built last) {q o : Place}
    (ho : o ∈ oks) (hunder : q <+: o) (hq : q ∉ oks) :
    last.files.hasFile (base ++ ownPlace q) = true := by
  -- from the unit upwards: a directory is listed after those in it, so it finds their parent files
  induction hdepth : o.length - q.length generalizing q with
  | zero =>
      have hlength := hunder.length_le
      rw [hunder.eq_of_length (by omega)] at hq
      exact absurd ho hq
  | succ depth ih =>
      obtain ⟨name, hname⟩ := Alive.exists_below ho hunder hq
      have hchild := h.child o ho q name hname
      obtain ⟨t, t', hturn⟩ := h.listed.turn q ((h.listed.mem_iff q).mpr ⟨name, hchild⟩)
      have hparts : modulePlace? t base q name ≠ none := by
        rw [h.turn_modulePlace? hturn]
        split
        · simp
        · rename_i hne
          have hbelow : last.files.hasFile (base ++ ownPlace (q ++ [name])) = true := by
            refine ih hname hne ?_
            rw [List.length_append, List.length_singleton]
            omega
          rw [if_pos ⟨(h.isName_of_prefix ho hname hne).1, hbelow⟩]
          simp
      have hlater : t'.hasFile (base ++ ownPlace q) = true := by
        cases hturn.listed with
        | nothing hnil =>
            obtain ⟨parts, hparts⟩ := Option.ne_none_iff_exists'.mp hparts
            have hmem := mem_listing (m := m) |>.mpr
              ⟨name, mem_namesIn.mpr hchild, parts, hparts, rfl⟩
            rw [hnil] at hmem
            cases hmem
        | list _ _ hnode _ =>
            have hbeside : ¬ isBeside t base q = true := by
              rw [hturn.isBeside_eq, h.isBeside_iff_mem]
              exact hq
            rw [listPlace, if_neg hbeside] at hnode
            exact FileTree.hasFile_iff.mpr ⟨_, hnode⟩
      rw [FileTree.hasFile, hturn.own_stays]
      exact hlater

theorem hasFile_ownPlace_iff (h : Fresh m base oks rs own built last) {q : Place} :
    last.files.hasFile (base ++ ownPlace q) = true ↔ Alive oks q ∧ q ∉ oks := by
  constructor
  · exact fun hfile => ⟨h.alive_of_hasFile_ownPlace hfile, (h.exists_of_hasFile_ownPlace hfile).1⟩
  · rintro ⟨⟨o, ho, hunder⟩, hq⟩
    exact h.hasFile_ownPlace_of_alive ho hunder hq

/-- The files below the destination are those of the modules that are alive. -/
theorem hasFile_iff (h : Fresh m base oks rs own built last) {rest : Place} (hrest : rest ≠ []) :
    last.files.hasFile (base ++ rest) = true ↔ ∃ q, Alive oks q ∧ rest = filePlace oks q := by
  constructor
  · intro hfile
    by_cases hown : ∃ r ∈ rs, rest = ownPlace r
    · obtain ⟨q, _, rfl⟩ := hown
      obtain ⟨halive, hq⟩ := h.hasFile_ownPlace_iff.mp hfile
      exact ⟨q, halive, by rw [filePlace, if_neg hq]⟩
    · have hsame := h.listed.lists.hasFile (base ++ rest) fun r hr heq =>
        hown ⟨r, hr, List.append_cancel_left heq⟩
      rw [hsame, h.unit_file _ hrest] at hfile
      obtain ⟨o, ho, rfl⟩ := hfile
      exact ⟨o, .of_mem ho, by rw [filePlace, if_pos ho]⟩
  · rintro ⟨q, halive, rfl⟩
    rw [filePlace]
    split
    · rename_i hq
      refine h.listed.lists.kept _ ?_
      exact (h.hasFile_besidePlace (h.ne_nil q hq)).mpr hq
    · rename_i hq
      exact h.hasFile_ownPlace_iff.mpr ⟨halive, hq⟩

theorem filePlace_of_mem {o : Place} (ho : o ∈ oks) : filePlace oks o = besidePlace o := by
  rw [filePlace, if_pos ho]

theorem filePlace_nil (h : Fresh m base oks rs own built last) :
    filePlace oks [] = [parentName] := by
  rw [filePlace, if_neg fun hmem => h.ne_nil [] hmem rfl]
  rfl

theorem filePlace_injOn (h : Fresh m base oks rs own built last) {q q' : Place}
    (heq : filePlace oks q = filePlace oks q') : q = q' := by
  rw [filePlace, filePlace] at heq
  split at heq <;> split at heq
  · exact besidePlace_injOn (h.ne_nil q ‹_›) (h.ne_nil q' ‹_›) heq
  · exact absurd (besidePlace_eq_ownPlace_iff.mp heq).2 (h.not_mod q ‹_›)
  · exact absurd (besidePlace_eq_ownPlace_iff.mp heq.symm).2 (h.not_mod q' ‹_›)
  · exact ownPlace_injective heq

theorem turn_modulePlace?_eq (h : Fresh m base oks rs own built last) {q : Place}
    {names : List Text} {t t' : FileTree}
    (hturn : Turn m rs names base q built.files t t' last.files) (name : Text) :
    modulePlace? t base q name =
      if Alive oks (q ++ [name]) then some (fileParts oks q name) else none := by
  rw [h.turn_modulePlace? hturn, fileParts]
  by_cases hmem : q ++ [name] ∈ oks
  · rw [if_pos hmem, if_pos hmem, if_pos (.of_mem hmem)]
  · have hparent : (Path.isPart name = true ∧
        last.files.hasFile (base ++ ownPlace (q ++ [name])) = true) ↔ Alive oks (q ++ [name]) := by
      rw [h.hasFile_ownPlace_iff]
      constructor
      · exact fun hfile => hfile.2.1
      · rintro ⟨o, ho, hunder⟩
        exact ⟨(h.isName_of_prefix ho hunder hmem).1, ⟨o, ho, hunder⟩, hmem⟩
    rw [if_neg hmem, if_neg hmem]
    simp only [hparent]

theorem turn_listing_eq (h : Fresh m base oks rs own built last) {q : Place} {t t' : FileTree}
    (hturn : Turn m rs (built.children.namesIn (m.dest.below q)) base q built.files t t'
      last.files) :
    listing t base q m (built.children.namesIn (m.dest.below q)) =
      moduleEntries m oks built.children q := by
  have hbeside : isBeside t base q = true ↔ q ∈ oks := by
    rw [hturn.isBeside_eq, h.isBeside_iff_mem]
  have hplace := h.turn_modulePlace?_eq hturn
  rw [listing, moduleEntries, kids]
  simp only [hplace, hbeside]
  generalize built.children.namesIn (m.dest.below q) = names
  induction names with
  | nil => rfl
  | cons name rest ih =>
      rw [List.filterMap_cons, List.filter_cons, ih]
      by_cases halive : Alive oks (q ++ [name]) <;> simp [halive]

theorem mem_kids (h : Fresh m base oks rs own built last) {q : Place} {name : Text} :
    name ∈ kids m oks built.children q ↔ Alive oks (q ++ [name]) := by
  rw [kids, List.mem_filter, decide_eq_true_eq, mem_namesIn, and_iff_right_iff_imp]
  rintro ⟨o, ho, hunder⟩
  exact h.child o ho q name hunder

theorem mem_of_moduleEntries_ne_nil (h : Fresh m base oks rs own built last) {q : Place}
    (hne : moduleEntries m oks built.children q ≠ []) : q ∈ rs := by
  obtain ⟨e, he⟩ := List.exists_mem_of_ne_nil _ hne
  obtain ⟨name, hname, _⟩ := List.mem_map.mp he
  exact (h.listed.mem_iff q).mpr ⟨name, mem_namesIn.mp (List.mem_of_mem_filter hname)⟩

theorem node?_ownPlace (h : Fresh m base oks rs own built last) {q : Place} (halive : Alive oks q)
    (hq : q ∉ oks) :
    last.files.node? (base ++ ownPlace q) = some (.file (Text.Utf8.encode (Entry.listText
        (moduleEntries m oks built.children q)))) ∧
      (Entry.listText (moduleEntries m oks built.children q)).any CodePoint.isSurrogate =
        false := by
  obtain ⟨o, ho, hunder⟩ := halive
  obtain ⟨name, hname⟩ := Alive.exists_below ho hunder hq
  have hchild := h.child o ho q name hname
  obtain ⟨t, t', hturn⟩ := h.listed.turn q ((h.listed.mem_iff q).mpr ⟨name, hchild⟩)
  have hbeside : ¬ isBeside t base q = true := by
    rw [hturn.isBeside_eq, h.isBeside_iff_mem]
    exact hq
  rw [hturn.own_stays]
  cases hturn.listed with
  | nothing hnil =>
      rw [h.turn_listing_eq hturn, moduleEntries, List.map_eq_nil_iff] at hnil
      have hkid := h.mem_kids.mpr ⟨o, ho, hname⟩
      rw [hnil] at hkid
      cases hkid
  | list _ _ hnode hplain =>
      rw [listPlace, beforeList, if_neg hbeside, if_neg hbeside, List.nil_append,
        h.turn_listing_eq hturn] at hnode
      rw [h.turn_listing_eq hturn] at hplain
      exact ⟨hnode, hplain⟩

theorem node?_besidePlace (h : Fresh m base oks rs own built last) {o : Place} (ho : o ∈ oks)
    {rust : Text} (hrust : own (base ++ besidePlace o) = some rust) :
    (moduleEntries m oks built.children o = [] ∧
        last.files.node? (base ++ besidePlace o) = some (.file (Text.Utf8.encode rust))) ∨
      moduleEntries m oks built.children o ≠ [] ∧
        last.files.node? (base ++ besidePlace o) = some (.file (Text.Utf8.encode rust ++
          Text.Utf8.encode "\n" ++ Text.Utf8.encode (Entry.listText
            (moduleEntries m oks built.children o)))) ∧
        (Entry.listText (moduleEntries m oks built.children o)).any CodePoint.isSurrogate =
          false := by
  have hne := h.ne_nil o ho
  have hbuilt : built.files.node? (base ++ besidePlace o) =
      some (.file (Text.Utf8.encode rust)) := by
    obtain ⟨_, hown, _, hnode⟩ := h.own_text o ho
    rwa [Option.some.inj (hown.symm.trans hrust)] at hnode
  by_cases hmem : o ∈ rs
  · obtain ⟨t, t', hturn⟩ := h.listed.turn o hmem
    have hbeside : isBeside t base o = true := by
      rw [hturn.isBeside_eq, h.isBeside_iff_mem]
      exact ho
    rw [hturn.beside_stays hne (h.not_mod o ho)]
    cases hturn.listed with
    | nothing hnil =>
        rw [h.turn_listing_eq hturn] at hnil
        exact Or.inl ⟨hnil, (hturn.beside_node hne).trans hbuilt⟩
    | list hlist _ hnode hplain =>
        have hbytes : t.bytesAt (base ++ besidePlace o) = Text.Utf8.encode rust := by
          rw [FileTree.bytesAt, hturn.beside_node hne, hbuilt]
        rw [listPlace, beforeList, if_pos hbeside, if_pos hbeside, hbytes,
          h.turn_listing_eq hturn] at hnode
        rw [h.turn_listing_eq hturn] at hlist hplain
        exact Or.inr ⟨hlist, hnode, hplain⟩
  · refine Or.inl ⟨Decidable.byContradiction fun hlist =>
      hmem (h.mem_of_moduleEntries_ne_nil hlist), ?_⟩
    rw [← hbuilt]
    refine h.listed.lists.node _ fun r hr => ⟨fun heq => ?_, fun hne' heq => ?_⟩
    · exact h.not_mod o ho (besidePlace_eq_ownPlace_iff.mp (List.append_cancel_left heq)).2
    · rw [besidePlace_injOn hne hne' (List.append_cancel_left heq)] at hmem
      exact hmem hr

theorem isName_above (h : Fresh m base oks rs own built last) {q : Place} {name : Text}
    (halive : Alive oks (q ++ [name])) (hq : q ≠ []) : Path.IsName (q.getLastD []) := by
  obtain ⟨o, ho, rest, rfl⟩ := halive
  refine h.directory_name _ ho _ ?_
  rw [List.append_assoc, List.dropLast_append_of_ne_nil (by simp)]
  refine List.mem_append_left _ ?_
  rw [List.getLastD_eq_getLast?, List.getLast?_eq_getLast_of_ne_nil hq]
  exact List.getLast_mem hq

theorem isName_fileParts (h : Fresh m base oks rs own built last) {q : Place} {name : Text}
    (halive : Alive oks (q ++ [name])) : ∀ part ∈ fileParts oks q name, Path.IsName part := by
  obtain ⟨o, ho, hunder⟩ := halive
  rw [fileParts]
  split
  · rename_i hmem
    obtain ⟨r, other, heq, hparts⟩ := h.noted _ (h.child o ho q name hunder)
    obtain ⟨_, rfl⟩ := Prod.mk.inj heq
    have hslash := h.slash_not_mem _ hmem
    rw [List.getLastD_concat] at hslash
    have hname := isName_append_moduleEnding hslash (hparts name (by simp)).2
    simpa using hname
  · rename_i hmem
    have hname := h.isName_of_prefix ho hunder hmem
    have hparent : Path.IsName parentName := by decide
    simp [hname, hparent]

theorem target_eq (h : Fresh m base oks rs own built last) {q : Place} {name scope : Text}
    (halive : Alive oks (q ++ [name])) :
    Entry.target (base ++ filePlace oks q)
      { location := Text.join "/" ((if q ∈ oks then [q.getLastD []] else []) ++
          fileParts oks q name)
        name := scope } = base ++ filePlace oks (q ++ [name]) := by
  have hne : fileParts oks q name ≠ [] := by
    rw [fileParts]
    split <;> simp
  have hlead : isBeside built.files base q = true → Path.IsName (q.getLastD []) :=
    fun hbeside => h.isName_above halive (isBeside_iff.mp hbeside).1
  have htarget := target_location scope hlead (h.isName_fileParts halive) hne
  simp only [h.isBeside_iff_mem] at htarget
  rw [filePlace_concat, ← htarget, h.listPlace_eq]

theorem hasFile_target (h : Fresh m base oks rs own built last) {q : Place} {e : Entry}
    (he : e ∈ moduleEntries m oks built.children q) :
    last.files.hasFile (e.target (base ++ filePlace oks q)) = true := by
  obtain ⟨name, hname, rfl⟩ := List.mem_map.mp he
  have halive := h.mem_kids.mp hname
  rw [h.target_eq halive, h.hasFile_iff]
  · exact ⟨_, halive, rfl⟩
  · rw [filePlace_concat, fileParts]
    split <;> simp

theorem isReadable_of_mem_moduleEntries (h : Fresh m base oks rs own built last)
    (hplain : ∀ o ∈ oks, ∀ part ∈ o, part.all Entry.isPlain = true) {q : Place} {e : Entry}
    (he : e ∈ moduleEntries m oks built.children q) : e.IsReadable := by
  obtain ⟨name, hname, rfl⟩ := List.mem_map.mp he
  obtain ⟨o, ho, hunder⟩ := h.mem_kids.mp hname
  have hparts : ∀ part ∈ q ++ [name], part.all Entry.isPlain = true :=
    fun part hpart => hplain o ho part (hunder.subset hpart)
  have hname := hparts name (by simp)
  refine ⟨?_, Entry.all_isInName_scopeName _ _⟩
  rw [Text.all_join rfl, List.all_append, Bool.and_eq_true]
  constructor
  · split
    · rename_i hq
      have hne := h.ne_nil q hq
      have hlast : q.getLastD [] ∈ q ++ [name] := by
        rw [List.getLastD_eq_getLast?, List.getLast?_eq_getLast_of_ne_nil hne]
        exact List.mem_append_left _ (List.getLast_mem hne)
      simpa using hparts _ hlast
    · rfl
  · rw [fileParts]
    split
    · rw [List.all_cons, List.all_append, hname]
      rfl
    · rw [List.all_cons, hname]
      rfl

theorem ofFile_eq (h : Fresh m base oks rs own built last)
    (hplain : ∀ o ∈ oks, ∀ part ∈ o, part.all Entry.isPlain = true) {q : Place}
    (halive : Alive oks q) :
    Entry.ofFile last.files own (base ++ filePlace oks q) =
      some (moduleEntries m oks built.children q) := by
  have hread := fun e he => h.isReadable_of_mem_moduleEntries hplain (q := q) (e := e) he
  rw [filePlace]
  split
  · rename_i hq
    obtain ⟨rust, hown, hrust, _⟩ := h.own_text q hq
    rcases h.node?_besidePlace hq hown with ⟨hnil, hnode⟩ | ⟨_, hnode, htext⟩
    · rw [hnil]
      exact Entry.ofFile_of_unit hown hnode hrust
    · exact Entry.ofFile_of_append hown hnode hrust htext hread
  · rename_i hq
    obtain ⟨hnode, htext⟩ := h.node?_ownPlace halive hq
    exact Entry.ofFile_of_list (h.own_none q) hnode htext hread

end Fresh

section

variable {t : FileTree} {units : List SourceFile} {results : List UnitResult}
  {prepared built last : Session}

theorem place_outputPath_eq_besidePlace {unit : SourceFile} (h : Path.climb ∉ unit.directory)
    (home : Place) : (m.outputPath unit).place home =
      m.dest.place home ++ besidePlace (unit.directory ++ [stem unit.path]) := by
  rw [place_outputPath h, besidePlace_concat]

/-- In an empty destination, the files after compilation are the outputs of the units that ended
well. -/
theorem Ran.hasFile_iff (hran : Ran m t units results prepared built last)
    (hempty : ∀ rest, rest ≠ [] → t.node? (m.dest.place t.home ++ rest) = none) {rest : Place}
    (hrest : rest ≠ []) :
    built.files.hasFile (m.dest.place t.home ++ rest) = true ↔
      ∃ o ∈ okModules units results, rest = besidePlace o := by
  have hhome : prepared.files.home = t.home := hran.discovered.files.home_eq
  have hclimb : ∀ unit ∈ units, Path.climb ∉ unit.directory :=
    fun unit hunit => Pool.climb_not_mem hran.discovered hunit
  have hnone : ∀ bytes,
      prepared.files.node? (m.dest.place t.home ++ rest) ≠ some (.file bytes) := by
    intro bytes hnode
    have hstart := hran.discovered.files.node?_of_file hnode
    rw [hempty rest hrest] at hstart
    cases hstart
  rw [FileTree.hasFile_iff]
  constructor
  · rintro ⟨bytes, hnode⟩
    by_cases hplace : ∃ unit ∈ units,
        m.dest.place t.home ++ rest = (m.outputPath unit).place prepared.files.home
    · obtain ⟨unit, hunit, heq⟩ := hplace
      obtain ⟨holder, hholder, houtput, hholds⟩ := exists_holder (m := m) hunit
      obtain ⟨result, hmem, houtcome⟩ := hran.compiled.exists_mem_zip hholder
      rw [← houtput] at heq
      have hbuilt := hran.compiled.output holder hholder hholds result houtcome
      rw [← heq, hnode, nodeAfter] at hbuilt
      cases hwritten : result.written? with
      | some rust =>
          refine ⟨_, mem_okModules.mpr ⟨holder, result, hmem,
            (UnitResult.written?_eq_some_iff.mp hwritten).1, rfl⟩, ?_⟩
          rw [hhome, place_outputPath_eq_besidePlace (hclimb holder hholder)] at heq
          exact List.append_cancel_left heq
      | none =>
          rw [hwritten] at hbuilt
          dsimp only at hbuilt
          split at hbuilt
          · cases hbuilt
          · rw [← heq] at hbuilt
            exact absurd hbuilt.symm (hnone bytes)
    · rw [hran.compiled.node _ fun unit hunit heq => hplace ⟨unit, hunit, heq⟩] at hnode
      exact absurd hnode (hnone bytes)
  · rintro ⟨o, ho, rfl⟩
    obtain ⟨unit, result, hmem, hok, rfl⟩ := mem_okModules.mp ho
    obtain ⟨_, rust, _, _, hnode⟩ := hran.compiled.of_ok hmem hok
    rw [hhome, place_outputPath_eq_besidePlace (hclimb unit (List.of_mem_zip hmem).1)] at hnode
    exact ⟨_, hnode⟩

theorem Ran.fresh (hran : Ran m t units results prepared built last)
    (hempty : ∀ rest, rest ≠ [] → t.node? (m.dest.place t.home ++ rest) = none)
    (hstem : ∀ unit ∈ units, stem unit.path ≠ Text.ofString "mod") :
    ∃ rs, Fresh m (m.dest.place t.home) (okModules units results) rs
      (m.unitText? t.home units results) built last := by
  obtain ⟨rs, hlisted⟩ := hran.listed
  have hhome : prepared.files.home = t.home := hran.discovered.files.home_eq
  have hclimb : ∀ unit ∈ units, Path.climb ∉ unit.directory :=
    fun unit hunit => Pool.climb_not_mem hran.discovered hunit
  refine ⟨rs, hlisted, hran.noted, fun rest hrest => hran.hasFile_iff hempty hrest,
    ?ne_nil, ?not_mod, ?directory_name, ?slash_not_mem, ?child, ?own_text, ?own_none⟩
  case ne_nil =>
    intro o ho
    obtain ⟨unit, _, _, _, rfl⟩ := mem_okModules.mp ho
    simp
  case not_mod =>
    intro o ho
    obtain ⟨unit, _, hmem, _, rfl⟩ := mem_okModules.mp ho
    rw [List.getLastD_concat]
    exact hstem unit (List.of_mem_zip hmem).1
  case directory_name =>
    intro o ho part hpart
    obtain ⟨unit, _, hmem, _, rfl⟩ := mem_okModules.mp ho
    rw [List.dropLast_concat] at hpart
    exact hran.discovered.directory unit (List.of_mem_zip hmem).1 part hpart
  case slash_not_mem =>
    intro o ho hslash
    obtain ⟨unit, _, hmem, _, rfl⟩ := mem_okModules.mp ho
    rw [List.getLastD_concat] at hslash
    exact (hran.discovered.name unit (List.of_mem_zip hmem).1).2.2.1 (mem_name_of_mem_stem hslash)
  case child =>
    intro o ho q name hunder
    obtain ⟨unit, _, hmem, hok, rfl⟩ := mem_okModules.mp ho
    rcases List.prefix_concat_iff.mp hunder with heq | hunder
    · obtain ⟨rfl, hname⟩ := List.append_inj' heq rfl
      rw [List.singleton_inj.mp hname]
      exact hran.compiled.noted_of_ok hmem hok
    · refine (hran.compiled.mem_children _).mpr (Or.inl ?_)
      exact hran.discovered.noted unit (List.of_mem_zip hmem).1 q name hunder
  case own_text =>
    intro o ho
    obtain ⟨unit, _, hmem, hok, rfl⟩ := mem_okModules.mp ho
    obtain ⟨_, rust, hrust, hplain, hnode⟩ := hran.compiled.of_ok hmem hok
    have htext := hran.compiled.unitText?_eq hmem hok hrust
    rw [hhome, place_outputPath_eq_besidePlace (hclimb unit (List.of_mem_zip hmem).1)]
      at hnode htext
    exact ⟨rust, htext, hplain, hnode⟩
  case own_none =>
    exact unitText?_ownPlace hclimb fun unit _ hmem _ => hstem unit (List.of_mem_zip hmem).1

end

end HostBindings.ModuleTree
