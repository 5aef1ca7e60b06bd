import HostBindings.Proofs.ModuleEntries
import HostBindings.Proofs.Scheduling
import Mathlib.Data.Set.List

/-!
What the lists of modules come to. Directories are listed one after the other, deeper ones first,
and each list goes to one file; at its turn a directory finds the files of units as their
compilation left them, and the lists of the directories below it as they stay.
-/

namespace HostBindings

open FileTree (ChangesAt SameDirectories WellFormed)

namespace ModuleTree

variable {m : ModuleTree}

/-- The parent file of a directory, from the destination. -/
def ownPlace (r : Place) : Place := r ++ [parentName]

/-- The module file of a directory's name, from the destination. -/
def besidePlace (r : Place) : Place := r.dropLast ++ [r.getLastD [] ++ moduleEnding]

theorem parentName_eq : parentName = Text.ofString "mod" ++ moduleEnding := rfl

theorem besidePlace_concat (r : Place) (name : Text) :
    besidePlace (r ++ [name]) = r ++ [name ++ moduleEnding] := by
  rw [besidePlace, List.dropLast_concat, List.getLastD_concat]

theorem ownPlace_injective : Function.Injective ownPlace := by
  intro r r' h
  exact List.append_cancel_right h

theorem besidePlace_injOn {r r' : Place} (hne : r ≠ []) (hne' : r' ≠ [])
    (h : besidePlace r = besidePlace r') : r = r' := by
  obtain ⟨habove, hname⟩ := List.append_inj' h rfl
  have hlast : r.getLastD [] = r'.getLastD [] :=
    List.append_cancel_right (List.singleton_inj.mp hname)
  rw [← dropLast_concat_getLastD hne, ← dropLast_concat_getLastD hne', habove, hlast]

theorem besidePlace_eq_ownPlace_iff {r r' : Place} :
    besidePlace r = ownPlace r' ↔ r.dropLast = r' ∧ r.getLastD [] = Text.ofString "mod" := by
  rw [besidePlace, ownPlace, parentName_eq]
  constructor
  · intro h
    obtain ⟨habove, hname⟩ := List.append_inj' h rfl
    exact ⟨habove, List.append_cancel_right (List.singleton_inj.mp hname)⟩
  · rintro ⟨rfl, hname⟩
    rw [hname]

theorem parentFile_below (p : Path) (r : Place) :
    parentFile (p.below r) = p.below (ownPlace r) := by
  simp [parentFile, ownPlace, Path.child, Path.below,
    show Path.isPart parentName = true from rfl]

theorem siblingFile_below (p : Path) {r : Place} (hne : r ≠ []) :
    siblingFile (p.below r) = p.below (besidePlace r) := by
  rw [siblingFile, parent_below _ hne, name_below _ hne, Path.child, List.filter_cons,
    if_pos (isPart_append_moduleEnding _)]
  simp [Path.below, besidePlace]

theorem below_eq_self_iff {p : Path} {r : Place} : p.below r = p ↔ r = [] := by
  constructor
  · intro h
    simpa [Path.below] using congrArg Path.parts h
  · rintro rfl
    simp [Path.below]

theorem below_injective (p : Path) : Function.Injective p.below := by
  intro r r' h
  exact List.append_cancel_left (congrArg Path.parts h)

section

variable (t : FileTree) (base r : Place)

/-- Whether the modules of a directory are listed beside it. -/
def isBeside : Bool := r != [] && t.hasFile (base ++ besidePlace r)

/-- The file for the list of a directory, from the destination. -/
def listPlace : Place := if isBeside t base r then besidePlace r else ownPlace r

/-- What stands before the list in its file. -/
def beforeList : List UInt8 :=
  if isBeside t base r then t.bytesAt (base ++ besidePlace r) ++ Text.Utf8.encode "\n" else []

/-- Where the file of a module is, from its directory. -/
def modulePlace? (name : Text) : Option (List Text) :=
  if t.hasFile (base ++ (r ++ [name ++ moduleEnding])) then some [name ++ moduleEnding]
  else if t.hasFile (base ++ (r ++ ([name].filter Path.isPart ++ [parentName]))) then
    some [name, parentName]
  else none

/-- The entries for the modules of a directory that have files. -/
def listing (m : ModuleTree) (names : List Text) : List Entry :=
  names.filterMap fun name =>
    (modulePlace? t base r name).map fun parts =>
      { location := Text.join "/" ((if isBeside t base r then [r.getLastD []] else []) ++ parts)
        name := m.options.scopeName name }

end

theorem isName_append_moduleEnding {name : Text} (hslash : CodePoint.ofChar '/' ∉ name)
    (hallowed : name.all Path.isAllowed = true) : Path.IsName (name ++ moduleEnding) := by
  refine ⟨isPart_append_moduleEnding name, append_moduleEnding_ne_climb name, ?_, ?_⟩
  · rw [List.mem_append]
    rintro (hmem | hmem)
    · exact hslash hmem
    · exact absurd hmem (by decide)
  · rw [List.all_append, hallowed]
    rfl

/-- The file of a module is there. A name that counts for nothing in paths would give the
directory's own list instead. -/
theorem of_modulePlace? {t : FileTree} {base r : Place} {name : Text} {parts : List Text}
    (hname : Path.IsEnterable name) (hslash : CodePoint.ofChar '/' ∉ name)
    (hpart : Path.isPart name = true ∨ t.hasFile (base ++ ownPlace r) = false)
    (h : modulePlace? t base r name = some parts) :
    (parts = [name ++ moduleEnding] ∨ Path.isPart name = true ∧ parts = [name, parentName]) ∧
      t.hasFile (base ++ (r ++ parts)) = true ∧ ∀ part ∈ parts, Path.IsName part := by
  have hfile := isName_append_moduleEnding hslash hname.2
  rw [modulePlace?] at h
  split at h
  · rename_i hunit
    obtain rfl := Option.some.inj h
    exact ⟨Or.inl rfl, hunit, by simpa using hfile⟩
  · rw [Option.ite_none_right_eq_some] at h
    obtain ⟨hparent, h⟩ := h
    obtain rfl := Option.some.inj h
    have hpart : Path.isPart name = true := by
      rcases hpart with hpart | hnone
      · exact hpart
      · refine Decidable.byContradiction fun hpart => ?_
        rw [List.filter_cons, if_neg hpart] at hparent
        rw [List.filter_nil, List.nil_append] at hparent
        exact absurd (hnone.symm.trans hparent) Bool.false_ne_true
    rw [List.filter_cons, if_pos hpart, List.filter_nil] at hparent
    refine ⟨Or.inr ⟨hpart, rfl⟩, hparent, fun part hmem => ?_⟩
    rcases List.mem_cons.mp hmem with rfl | hmem
    · exact ⟨hpart, hname.1, hslash, hname.2⟩
    · rw [List.mem_singleton.mp hmem]
      decide

theorem mem_listing {t : FileTree} {base r : Place} {names : List Text} {e : Entry} :
    e ∈ listing t base r m names ↔
      ∃ name ∈ names, ∃ parts, modulePlace? t base r name = some parts ∧
      { location := Text.join "/" ((if isBeside t base r then [r.getLastD []] else []) ++ parts)
        name := m.options.scopeName name } = e := by
  simp only [listing, List.mem_filterMap, Option.map_eq_some_iff]

theorem listing_congr {t t' : FileTree} {base r : Place} {names : List Text}
    (hbeside : isBeside t base r = isBeside t' base r)
    (hplaces : ∀ name ∈ names, modulePlace? t base r name = modulePlace? t' base r name) :
    listing t base r m names = listing t' base r m names := by
  refine List.filterMap_congr fun name hname => ?_
  rw [hbeside, hplaces name hname]

theorem map_name_listing (t : FileTree) (base r : Place) (names : List Text) :
    (listing t base r m names).map Entry.name =
      (names.filter fun name => (modulePlace? t base r name).isSome).map m.options.scopeName := by
  induction names with
  | nil => rfl
  | cons name rest ih =>
      rw [listing] at ih ⊢
      rw [List.filterMap_cons, List.filter_cons]
      cases modulePlace? t base r name with
      | none => exact ih
      | some parts => simpa using ih

theorem isReadable_of_mem_listing {t : FileTree} {base r : Place} {names : List Text} {e : Entry}
    (hplain : ∀ part ∈ r.getLastD [] :: names, part.all Entry.isPlain = true)
    (he : e ∈ listing t base r m names) : e.IsReadable := by
  obtain ⟨name, hname, parts, hparts, rfl⟩ := mem_listing.mp he
  refine ⟨?_, Entry.all_isInName_scopeName _ _⟩
  have hname := hplain name (List.mem_cons_of_mem _ hname)
  have hlead : ∀ part ∈ (if isBeside t base r then [r.getLastD []] else []),
      part.all Entry.isPlain = true := by
    intro part hpart
    split at hpart
    · rw [List.mem_singleton.mp hpart]
      exact hplain _ List.mem_cons_self
    · cases hpart
  rw [Text.all_join rfl, List.all_append, Bool.and_eq_true]
  refine ⟨List.all_eq_true.mpr hlead, ?_⟩
  rw [modulePlace?] at hparts
  split at hparts
  · rw [← Option.some.inj hparts, List.all_cons, List.all_append, hname]
    rfl
  · rw [Option.ite_none_right_eq_some] at hparts
    rw [← Option.some.inj hparts.2, List.all_cons, hname]
    rfl

theorem target_location {t : FileTree} {base r : Place} {parts : List Text} (name : Text)
    (hlead : isBeside t base r = true → Path.IsName (r.getLastD []))
    (hparts : ∀ part ∈ parts, Path.IsName part) (hne : parts ≠ []) :
    Entry.target (base ++ listPlace t base r)
      { location := Text.join "/" ((if isBeside t base r then [r.getLastD []] else []) ++ parts)
        name } = base ++ (r ++ parts) := by
  have htarget (lead : List Text) (hleads : ∀ part ∈ lead, Path.IsName part) (place : Place) :
      Entry.target place { location := Text.join "/" (lead ++ parts), name } =
        place.dropLast ++ (lead ++ parts) := by
    have hall : ∀ part ∈ lead ++ parts, Path.IsName part := by
      intro part hpart
      rcases List.mem_append.mp hpart with hpart | hpart
      · exact hleads part hpart
      · exact hparts part hpart
    rw [Entry.target, Path.ofText_join (by simp [hne])
      fun part hpart => ⟨(hall part hpart).1, (hall part hpart).2.2.1⟩]
    exact Path.foldl_advance (fun hmem => (hall _ hmem).2.1 rfl) _
  rw [listPlace]
  cases hbeside : isBeside t base r with
  | true =>
      obtain ⟨hnonempty, _⟩ : r ≠ [] ∧ _ := by
        rw [isBeside, Bool.and_eq_true, bne_iff_ne] at hbeside
        exact hbeside
      rw [if_pos rfl, if_pos rfl, htarget [r.getLastD []] (by simpa using hlead hbeside),
        besidePlace, ← List.append_assoc base, List.dropLast_concat, ← List.append_assoc,
        List.append_assoc base, dropLast_concat_getLastD hnonempty, List.append_assoc]
  | false =>
      rw [if_neg Bool.false_ne_true, if_neg Bool.false_ne_true, htarget [] (by simp), ownPlace,
        ← List.append_assoc base, List.dropLast_concat, List.nil_append, List.append_assoc]

theorem isEnterable_append_moduleEnding {name : Text} (h : Path.IsEnterable name) :
    Path.IsEnterable (name ++ moduleEnding) := by
  refine ⟨append_moduleEnding_ne_climb name, ?_⟩
  rw [List.all_append, h.2]
  rfl

theorem isEnterable_parentName : Path.IsEnterable parentName := ⟨by decide, rfl⟩

section

variable {t t' : FileTree} {base r : Place}

theorem moduleFile?_eq_ok (hwell : t.WellFormed) (hlocate : t.locate m.dest = .ok base)
    (hr : ∀ part ∈ r, Path.IsEnterable part) {name : Text} (hname : Path.IsEnterable name)
    {found : Option Text} (h : moduleFile? t (m.dest.below r) name = .ok found) :
    found = (modulePlace? t base r name).map (Text.join "/") := by
  have hfile : (m.dest.below r).child (name ++ moduleEnding) =
      m.dest.below (r ++ [name ++ moduleEnding]) := by
    rw [Path.child, List.filter_cons, if_pos (isPart_append_moduleEnding _)]
    simp [Path.below]
  have hparent : parentFile ((m.dest.below r).child name) =
      m.dest.below (r ++ ([name].filter Path.isPart ++ [parentName])) := by
    have hchild : (m.dest.below r).child name = m.dest.below (r ++ [name].filter Path.isPart) := by
      simp [Path.child, Path.below]
    rw [hchild, parentFile_below, ownPlace, List.append_assoc]
  rw [moduleFile?, hfile, hparent] at h
  obtain ⟨own, hown, h⟩ := except_bind_eq_ok_iff.mp h
  have hown := hwell.isFile_below hlocate (by
    intro part hpart
    rcases List.mem_append.mp hpart with hpart | hpart
    · exact hr part hpart
    · rw [List.mem_singleton.mp hpart]
      exact isEnterable_append_moduleEnding hname) hown
  rw [modulePlace?, ← hown]
  cases own with
  | true =>
      rw [← Except.ok.inj h]
      simp [Text.join, List.intercalate]
  | false =>
      obtain ⟨parent, hparent, h⟩ := except_bind_eq_ok_iff.mp h
      have hparent := hwell.isFile_below hlocate (by
        intro part hpart
        rcases List.mem_append.mp hpart with hpart | hpart
        · exact hr part hpart
        · rcases List.mem_append.mp hpart with hpart | hpart
          · rw [List.mem_singleton.mp (List.mem_of_mem_filter hpart)]
            exact hname
          · rw [List.mem_singleton.mp hpart]
            exact isEnterable_parentName) hparent
      rw [← hparent]
      cases parent with
      | true =>
          rw [← Except.ok.inj h]
          simp [Text.join, List.intercalate]
      | false =>
          rw [← Except.ok.inj h]
          rfl

theorem entries_eq_ok (hwell : t.WellFormed) (hlocate : t.locate m.dest = .ok base)
    (hr : ∀ part ∈ r, Path.IsEnterable part) {names : List Text}
    (hnames : ∀ name ∈ names, Path.IsEnterable name) {lead text : Text}
    (hlead : ∀ first rest, lead ++ Text.join "/" (first :: rest) =
      Text.join "/" ((if isBeside t base r then [r.getLastD []] else []) ++ first :: rest))
    (h : m.entries (m.dest.below r) lead names t = .ok text) :
    text = Entry.listText (listing t base r m names) := by
  obtain ⟨texts, htexts, htext⟩ := except_bind_eq_ok_iff.mp h
  rw [← Except.ok.inj htext]
  clear h htext
  induction names generalizing texts with
  | nil =>
      cases htexts
      rfl
  | cons name rest ih =>
      rw [List.mapM_cons] at htexts
      obtain ⟨first, hfirst, htexts⟩ := except_bind_eq_ok_iff.mp htexts
      obtain ⟨others, hothers, htexts⟩ := except_bind_eq_ok_iff.mp htexts
      rw [← Except.ok.inj htexts, List.flatten_cons,
        ih (fun other hother => hnames other (List.mem_cons_of_mem _ hother)) others hothers]
      obtain ⟨found, hfound, hfirst⟩ := except_bind_eq_ok_iff.mp hfirst
      have hfound := moduleFile?_eq_ok hwell hlocate hr (hnames name List.mem_cons_self) hfound
      rw [listing, listing, List.filterMap_cons]
      cases hplace : modulePlace? t base r name with
      | none =>
          rw [hplace] at hfound
          subst hfound
          rw [← Except.ok.inj hfirst]
          rfl
      | some parts =>
          obtain ⟨part, more, rfl⟩ : ∃ part more, parts = part :: more := by
            rw [modulePlace?] at hplace
            split at hplace
            · exact ⟨_, _, (Option.some.inj hplace).symm⟩
            · split at hplace
              · exact ⟨_, _, (Option.some.inj hplace).symm⟩
              · cases hplace
          rw [hplace] at hfound
          subst hfound
          rw [← Except.ok.inj hfirst, hlead, ← Entry.text_mk]
          rfl

/-- What the list of a directory does to the files. -/
inductive Listed (m : ModuleTree) (names : List Text) (base r : Place) (t : FileTree) :
    FileTree → Prop
  | nothing (h : listing t base r m names = []) : Listed m names base r t t
  | list {t' : FileTree} (h : listing t base r m names ≠ [])
      (hchange : t.ChangesAt (base ++ listPlace t base r) t')
      (hnode : t'.node? (base ++ listPlace t base r) = some (.file (beforeList t base r ++
        Text.Utf8.encode (Entry.listText (listing t base r m names)))))
      (hplain : (Entry.listText (listing t base r m names)).any CodePoint.isSurrogate = false) :
      Listed m names base r t t'

theorem isBeside_of_listsBeside (hwell : t.WellFormed) (hlocate : t.locate m.dest = .ok base)
    (hr : ∀ part ∈ r, Path.IsEnterable part) {beside : Bool}
    (h : m.listsBeside (m.dest.below r) t = .ok beside) : beside = isBeside t base r := by
  rw [listsBeside] at h
  by_cases hne : r = []
  · rw [if_pos (below_eq_self_iff.mpr hne)] at h
    rw [← Except.ok.inj h, isBeside, hne]
    rfl
  · rw [if_neg (fun heq => hne (below_eq_self_iff.mp heq)), siblingFile_below _ hne] at h
    have hbeside := hwell.isFile_below hlocate (by
      intro part hpart
      rcases List.mem_append.mp hpart with hpart | hpart
      · exact hr part (List.dropLast_subset _ hpart)
      · rw [List.mem_singleton.mp hpart]
        refine isEnterable_append_moduleEnding (hr _ ?_)
        rw [List.getLastD_eq_getLast?, List.getLast?_eq_getLast_of_ne_nil hne]
        exact List.getLast_mem hne) h
    have hnonempty : (r != []) = true := by simpa using hne
    rw [hbeside, isBeside, hnonempty, Bool.true_and]

theorem climb_not_mem_ownPlace (hr : ∀ part ∈ r, Path.IsEnterable part) :
    Path.climb ∉ ownPlace r := by
  intro hmem
  rcases List.mem_append.mp hmem with hmem | hmem
  · exact (hr _ hmem).1 rfl
  · exact absurd hmem (by decide)

theorem climb_not_mem_besidePlace (hr : ∀ part ∈ r, Path.IsEnterable part) :
    Path.climb ∉ besidePlace r := by
  intro hmem
  rcases List.mem_append.mp hmem with hmem | hmem
  · exact (hr _ (List.dropLast_subset _ hmem)).1 rfl
  · exact append_moduleEnding_ne_climb _ (List.mem_singleton.mp hmem).symm

theorem climb_not_mem_listPlace (hr : ∀ part ∈ r, Path.IsEnterable part) :
    Path.climb ∉ listPlace t base r := by
  rw [listPlace]
  split
  · exact climb_not_mem_besidePlace hr
  · exact climb_not_mem_ownPlace hr

theorem Listed.of_put (hwell : t.WellFormed) (hdest : t.locate m.dest = .ok base)
    (hr : ∀ part ∈ r, Path.IsEnterable part) {names : List Text} {place : Place}
    (hlocate : t.locate (m.dest.below (listPlace t base r)) = .ok place)
    (hfree : t.node? place ≠ some .directory) (hne : listing t base r m names ≠ [])
    (hplain : (Entry.listText (listing t base r m names)).any CodePoint.isSurrogate = false) :
    Listed m names base r t (t.put place (.file (beforeList t base r ++
      Text.Utf8.encode (Entry.listText (listing t base r m names))))) := by
  have hplace : (m.dest.below (listPlace t base r)).place t.home = base ++ listPlace t base r := by
    rw [Path.place_below _ _ (climb_not_mem_listPlace hr), FileTree.locate_eq_ok hdest]
  have hchange := ChangesAt.put hwell hlocate hfree (beforeList t base r ++
    Text.Utf8.encode (Entry.listText (listing t base r m names)))
  rw [hplace] at hchange
  refine .list hne hchange ?_ hplain
  rw [← hplace, ← FileTree.locate_eq_ok hlocate,
    FileTree.node?_put _ (FileTree.ne_nil_of_ne_directory hfree), if_pos rfl]

theorem listed_of_write {s s' : Session} (hwell : s.files.WellFormed)
    (hdest : s.files.locate m.dest = .ok base) (hr : ∀ part ∈ r, Path.IsEnterable part)
    {names : List Text} {text : Text}
    (htext : text = Entry.listText (listing s.files base r m names))
    {write : FileTree.Change}
    (hwrite : ∀ t', write.run s.files = .ok () t' →
      ∃ place, s.files.locate (m.dest.below (listPlace s.files base r)) = .ok place ∧
        s.files.node? place ≠ some .directory ∧ text.any CodePoint.isSurrogate = false ∧
        t' = s.files.put place (.file (beforeList s.files base r ++ Text.Utf8.encode text)))
    (h : (if text.isEmpty then pure () else Run.change write : Run Unit).run s = .ok () s') :
    s'.children = s.children ∧ Listed m names base r s.files s'.files := by
  split at h
  · rename_i hempty
    cases h
    rw [List.isEmpty_iff, htext, Entry.listText_eq_nil_iff] at hempty
    exact ⟨rfl, .nothing hempty⟩
  · rename_i hempty
    rw [List.isEmpty_iff, htext, Entry.listText_eq_nil_iff] at hempty
    obtain ⟨t', ht', rfl⟩ := Run.change_eq_ok_iff.mp h
    obtain ⟨place, hlocate, hfree, hplain, rfl⟩ := hwrite t' ht'
    subst htext
    exact ⟨rfl, .of_put hwell hdest hr hlocate hfree hempty hplain⟩

theorem writeParent_eq_ok {s s' : Session} (hwell : s.files.WellFormed)
    (hdest : s.files.locate m.dest = .ok base) (hr : ∀ part ∈ r, Path.IsEnterable part)
    (hnames : ∀ name ∈ s.children.namesIn (m.dest.below r), Path.IsEnterable name)
    (h : (m.writeParent (m.dest.below r)).run s = .ok () s') :
    s'.children = s.children ∧
      Listed m (s.children.namesIn (m.dest.below r)) base r s.files s'.files := by
  rw [writeParent, EStateM.run_bind, EStateM.run_get] at h
  obtain ⟨beside, now, hask, hrest⟩ := run_bind_eq_ok_iff.mp h
  obtain ⟨hbeside, hnow⟩ := Run.ask_eq_ok_iff.mp hask
  rw [hnow] at hrest
  have hbeside := isBeside_of_listsBeside hwell hdest hr hbeside
  cases beside with
  | true =>
      have hne : r ≠ [] := by
        rintro rfl
        exact absurd hbeside (by simp [isBeside])
      obtain ⟨text, now, hask, hwrite⟩ := run_bind_eq_ok_iff.mp hrest
      obtain ⟨htext, hnow⟩ := Run.ask_eq_ok_iff.mp hask
      rw [hnow] at hwrite
      have htext := entries_eq_ok hwell hdest hr hnames (by
        intro first rest
        rw [← hbeside, name_below _ hne]
        simp [Text.join, List.intercalate]) htext
      refine listed_of_write hwell hdest hr htext ?_ hwrite
      intro t' ht'
      obtain ⟨place, hlocate, hfree, hplain, rfl⟩ :=
        FileTree.Change.appendText_eq_ok_iff.mp ht'
      rw [siblingFile_below _ hne] at hlocate
      rw [listPlace, beforeList, ← hbeside, if_pos rfl, if_pos rfl]
      refine ⟨place, hlocate, hfree, ?_, ?_⟩
      · rw [List.any_append, Bool.or_eq_false_iff] at hplain
        exact hplain.2
      · have hfile : s.files.hasFile (base ++ besidePlace r) = true := by
          rw [isBeside, eq_comm, Bool.and_eq_true] at hbeside
          exact hbeside.2
        have hplace : place = base ++ besidePlace r := by
          rw [FileTree.locate_eq_ok hlocate,
            Path.place_below _ _ (climb_not_mem_besidePlace hr), FileTree.locate_eq_ok hdest]
        have hread : s.files.read? (siblingFile (m.dest.below r)) =
            some (s.files.bytesAt (base ++ besidePlace r)) := by
          rw [siblingFile_below _ hne]
          refine FileTree.Change.read?_eq_of_locate hlocate ?_
          rw [hplace]
          exact FileTree.node?_of_hasFile hfile
        rw [hread, Option.getD_some, Text.Utf8.encode_append, List.append_assoc]
  | false =>
      obtain ⟨text, now, hask, hwrite⟩ := run_bind_eq_ok_iff.mp hrest
      obtain ⟨htext, hnow⟩ := Run.ask_eq_ok_iff.mp hask
      rw [hnow] at hwrite
      have htext := entries_eq_ok hwell hdest hr hnames (by
        intro first rest
        rw [← hbeside]
        rfl) htext
      refine listed_of_write hwell hdest hr htext ?_ hwrite
      intro t' ht'
      obtain ⟨place, hlocate, hfree, hplain, rfl⟩ := FileTree.Change.writeText_eq_ok_iff.mp ht'
      rw [parentFile_below] at hlocate
      rw [listPlace, beforeList, ← hbeside, if_neg Bool.false_ne_true, if_neg Bool.false_ne_true]
      exact ⟨place, hlocate, hfree, hplain, rfl⟩

end

/-- What the lists of directories keep. A file beside a directory gets a list only if it is there,
so that files are new only at the places of parent files. -/
structure Lists (rs : List Place) (base : Place) (t t' : FileTree) : Prop where
  same : t.SameDirectories t'
  wellFormed : t'.WellFormed
  node : ∀ place,
    (∀ r ∈ rs, place ≠ base ++ ownPlace r ∧ (r ≠ [] → place ≠ base ++ besidePlace r)) →
      t'.node? place = t.node? place
  hasFile : ∀ place, (∀ r ∈ rs, place ≠ base ++ ownPlace r) → t'.hasFile place = t.hasFile place
  kept : ∀ place, t.hasFile place = true → t'.hasFile place = true

section

variable {t t' t'' : FileTree} {base r : Place} {rs rs' : List Place} {names : List Text}

theorem Lists.refl (h : t.WellFormed) (base : Place) : Lists [] base t t :=
  ⟨.refl t, h, fun _ _ => rfl, fun _ _ => rfl, fun _ h => h⟩

theorem Lists.trans (h : Lists rs base t t') (h' : Lists rs' base t' t'') :
    Lists (rs ++ rs') base t t'' := by
  refine ⟨h.same.trans h'.same, h'.wellFormed, ?_, ?_, ?_⟩
  · intro place hplace
    rw [h'.node place fun r hr => hplace r (List.mem_append_right _ hr),
      h.node place fun r hr => hplace r (List.mem_append_left _ hr)]
  · intro place hplace
    rw [h'.hasFile place fun r hr => hplace r (List.mem_append_right _ hr),
      h.hasFile place fun r hr => hplace r (List.mem_append_left _ hr)]
  · exact fun place hfile => h'.kept place (h.kept place hfile)

theorem isBeside_iff :
    isBeside t base r = true ↔ r ≠ [] ∧ t.hasFile (base ++ besidePlace r) = true := by
  rw [isBeside, Bool.and_eq_true, bne_iff_ne]

theorem Listed.lists (h : Listed m names base r t t') (hwell : t.WellFormed) :
    Lists [r] base t t' := by
  cases h with
  | nothing _ => exact ⟨.refl t, hwell, fun _ _ => rfl, fun _ _ => rfl, fun _ h => h⟩
  | list _ hchange hnode _ =>
      have hfile : t'.hasFile (base ++ listPlace t base r) = true :=
        FileTree.hasFile_iff.mpr ⟨_, hnode⟩
      have hother : ∀ place, place ≠ base ++ listPlace t base r →
          t'.hasFile place = t.hasFile place := by
        intro place hplace
        rw [FileTree.hasFile, FileTree.hasFile, hchange.node place hplace]
      refine ⟨hchange.same, hchange.wellFormed, ?_, ?_, ?_⟩
      · intro place hplace
        obtain ⟨hown, hbeside⟩ := hplace r List.mem_cons_self
        refine hchange.node place ?_
        rw [listPlace]
        split
        · rename_i h
          exact hbeside (isBeside_iff.mp h).1
        · exact hown
      · intro place hplace
        by_cases hlist : place = base ++ listPlace t base r
        · have hbeside : isBeside t base r = true := by
            refine Decidable.byContradiction fun hown => ?_
            rw [listPlace, if_neg hown] at hlist
            exact hplace r List.mem_cons_self hlist
          rw [hlist, hfile, listPlace, if_pos hbeside, (isBeside_iff.mp hbeside).2]
        · exact hother place hlist
      · intro place hplace
        by_cases hlist : place = base ++ listPlace t base r
        · rw [hlist]
          exact hfile
        · rw [hother place hlist]
          exact hplace

/-- The lists of directories one after the other: what all of them keep, and what was there when the
turn of each came. -/
theorem lists_of_forM {s s' : Session} (hwell : s.files.WellFormed)
    (hdest : s.files.locate m.dest = .ok base)
    (hrs : ∀ r ∈ rs, ∀ part ∈ r, Path.IsEnterable part)
    (hnames : ∀ r ∈ rs, ∀ name ∈ s.children.namesIn (m.dest.below r), Path.IsEnterable name)
    (h : ((rs.map m.dest.below).forM m.writeParent).run s = .ok () s') :
    s'.children = s.children ∧ Lists rs base s.files s'.files ∧
      ∀ first r last, rs = first ++ r :: last → ∃ t t', Lists first base s.files t ∧
        Listed m (s.children.namesIn (m.dest.below r)) base r t t' ∧
        Lists last base t' s'.files := by
  induction rs generalizing s with
  | nil =>
      cases h
      refine ⟨rfl, .refl hwell base, fun first r last hrs => ?_⟩
      simp at hrs
  | cons r rest ih =>
      rw [List.map_cons, List.forM_eq_forM, List.forM_cons] at h
      obtain ⟨_, s₁, hfirst, hrest⟩ := run_bind_eq_ok_iff.mp h
      obtain ⟨hchildren, hlisted⟩ := writeParent_eq_ok hwell hdest (hrs r List.mem_cons_self)
        (hnames r List.mem_cons_self) hfirst
      have hlists := hlisted.lists hwell
      obtain ⟨hchildren', hlists', hturns⟩ := ih hlists.wellFormed
        (hlists.same.forth.locate hdest)
        (fun other hother => hrs other (List.mem_cons_of_mem _ hother))
        (fun other hother => hchildren ▸ hnames other (List.mem_cons_of_mem _ hother)) hrest
      refine ⟨hchildren'.trans hchildren, hlists.trans hlists', ?_⟩
      intro first other last heq
      cases first with
      | nil =>
          obtain ⟨rfl, rfl⟩ := List.cons_eq_cons.mp heq
          exact ⟨s.files, s₁.files, .refl hwell base, hlisted, hlists'⟩
      | cons head first =>
          obtain ⟨rfl, hrest⟩ := List.cons_eq_cons.mp heq
          obtain ⟨t, t', hbefore, hturn, hafter⟩ := hturns first other last hrest
          rw [hchildren] at hturn
          exact ⟨t, t', hlists.trans hbefore, hturn, hafter⟩

/-- The turn of a directory among directories `rs`: what its list found in files `t`, and how that
compares with the files before and after all lists. -/
structure Turn (m : ModuleTree) (rs : List Place) (names : List Text) (base r : Place)
    (before t t' after : FileTree) : Prop where
  listed : Listed m names base r t t'
  /-- The files of units are as their compilation left them. -/
  unit_file : ∀ name, t.hasFile (base ++ (r ++ [name ++ moduleEnding])) =
    before.hasFile (base ++ (r ++ [name ++ moduleEnding]))
  beside_node : r ≠ [] → t.node? (base ++ besidePlace r) = before.node? (base ++ besidePlace r)
  /-- The lists of the directories below are those that stay. -/
  parent_file : ∀ name, t.hasFile (base ++ (r ++ [name, parentName])) =
    after.hasFile (base ++ (r ++ [name, parentName]))
  own_node : r ++ [Text.ofString "mod"] ∉ rs →
    t.node? (base ++ ownPlace r) = before.node? (base ++ ownPlace r)
  own_stays : after.node? (base ++ ownPlace r) = t'.node? (base ++ ownPlace r)
  beside_stays : r ≠ [] → r.getLastD [] ≠ Text.ofString "mod" →
    after.node? (base ++ besidePlace r) = t'.node? (base ++ besidePlace r)

theorem Turn.isBeside_eq {before after : FileTree} (h : Turn m rs names base r before t t' after) :
    isBeside t base r = isBeside before base r := by
  by_cases hne : r = []
  · simp [isBeside, hne]
  · rw [isBeside, isBeside, FileTree.hasFile, h.beside_node hne]
    rfl

theorem turn_of_lists {before after : FileTree} {first last : List Place}
    (hnodup : (first ++ r :: last).Nodup)
    (hsorted : (first ++ r :: last).Pairwise fun a b => b.length ≤ a.length)
    (hfirst : Lists first base before t)
    (hlisted : Listed m names base r t t') (hlast : Lists last base t' after) :
    Turn m (first ++ r :: last) names base r before t t' after := by
  -- lists before the one of `r` are of directories as deep or deeper, later ones of none deeper;
  -- this tells the places of the other lists from those that the turn of `r` is about
  have hothers := List.nodup_append.mp hnodup
  have horder := List.pairwise_append.mp hsorted
  have hdeeper : ∀ other ∈ first, other ≠ r ∧ r.length ≤ other.length := fun other hother =>
    ⟨hothers.2.2 other hother r List.mem_cons_self, horder.2.2 other hother r List.mem_cons_self⟩
  have hhigher : ∀ other ∈ last, other ≠ r ∧ other.length ≤ r.length := fun other hother =>
    ⟨fun heq => (List.nodup_cons.mp hothers.2.1).1 (heq ▸ hother),
      (List.pairwise_cons.mp horder.2.1).1 other hother⟩
  have hlength : ∀ r : Place, r ≠ [] → r.dropLast.length < r.length := by
    intro r hne
    have hpos := List.length_pos_of_ne_nil hne
    rw [List.length_dropLast]
    omega
  refine ⟨hlisted, ?unit_file, ?beside_node, ?parent_file, ?own_node, ?own_stays, ?beside_stays⟩
  case unit_file =>
    intro name
    refine hfirst.hasFile _ fun other hother heq => (hdeeper other hother).1 ?_
    exact (List.append_inj' (List.append_cancel_left heq) rfl).1.symm
  case beside_node =>
    intro hne
    refine hfirst.node _ fun other hother => ⟨fun heq => ?_, fun hne' heq => ?_⟩
    · obtain ⟨rfl, _⟩ := besidePlace_eq_ownPlace_iff.mp (List.append_cancel_left heq)
      exact absurd (hdeeper _ hother).2 (Nat.not_le.mpr (hlength r hne))
    · exact (hdeeper other hother).1
        (besidePlace_injOn hne hne' (List.append_cancel_left heq)).symm
  case parent_file =>
    intro name
    refine (((hlisted.lists hfirst.wellFormed).trans hlast).hasFile _
      fun other hother heq => ?_).symm
    have hother' : other.length ≤ r.length := by
      rcases List.mem_cons.mp hother with rfl | hother
      · exact Nat.le_refl _
      · exact (hhigher other hother).2
    have hequal := congrArg List.length (List.append_cancel_left heq)
    simp only [ownPlace, List.length_append, List.length_cons, List.length_nil] at hequal
    omega
  case own_node =>
    intro hmod
    refine hfirst.node _ fun other hother => ⟨fun heq => ?_, fun hne heq => ?_⟩
    · exact (hdeeper other hother).1 (ownPlace_injective (List.append_cancel_left heq)).symm
    · obtain ⟨rfl, hname⟩ := besidePlace_eq_ownPlace_iff.mp (List.append_cancel_left heq).symm
      rw [← hname, dropLast_concat_getLastD hne] at hmod
      exact hmod (List.mem_append_left _ hother)
  case own_stays =>
    refine hlast.node _ fun other hother => ⟨fun heq => ?_, fun hne heq => ?_⟩
    · exact (hhigher other hother).1 (ownPlace_injective (List.append_cancel_left heq)).symm
    · obtain ⟨rfl, _⟩ := besidePlace_eq_ownPlace_iff.mp (List.append_cancel_left heq).symm
      exact absurd (hhigher other hother).2 (Nat.not_le.mpr (hlength other hne))
  case beside_stays =>
    intro hne hmod
    refine hlast.node _ fun other hother => ⟨fun heq => ?_, fun hne' heq => ?_⟩
    · exact hmod (besidePlace_eq_ownPlace_iff.mp (List.append_cancel_left heq)).2
    · exact (hhigher other hother).1
        (besidePlace_injOn hne hne' (List.append_cancel_left heq)).symm

end

theorem nodup_eraseDups {α : Type} [BEq α] [LawfulBEq α] (as : List α) : as.eraseDups.Nodup := by
  match as with
  | [] => simp
  | a :: rest =>
      rw [List.eraseDups_cons, List.nodup_cons]
      refine ⟨?_, nodup_eraseDups (rest.filter fun b => !b == a)⟩
      simp [List.mem_eraseDups]
termination_by as.length
decreasing_by
  exact Nat.lt_succ_of_le (List.length_filter_le _ rest)

theorem writesBefore_iff {a b : Path} :
    writesBefore a b = true ↔ b.parts.length < a.parts.length ∨
      a.parts.length = b.parts.length ∧ ¬ (parentFile b).toText < (parentFile a).toText := by
  simp only [writesBefore, Bool.or_eq_true, Bool.and_eq_true, Bool.not_eq_true', beq_iff_eq,
    decide_eq_true_eq, decide_eq_false_iff_not]

theorem pairwise_mergeSort_writesBefore (directories : List Path) :
    (directories.mergeSort writesBefore).Pairwise fun a b => b.parts.length ≤ a.parts.length := by
  refine (List.pairwise_mergeSort ?_ ?_ directories).imp ?_
  · intro a b c hab hbc
    rw [writesBefore_iff] at hab hbc ⊢
    rcases hab with hab | ⟨hab, habText⟩
    · exact Or.inl (by omega)
    · rcases hbc with hbc | ⟨hbc, hbcText⟩
      · exact Or.inl (by omega)
      · have htext := List.le_trans (List.not_lt.mp habText) (List.not_lt.mp hbcText)
        exact Or.inr ⟨hab.trans hbc, List.not_lt.mpr htext⟩
  · intro a b
    rw [Bool.or_eq_true, writesBefore_iff, writesBefore_iff]
    rcases Nat.lt_trichotomy a.parts.length b.parts.length with hlt | heq | hlt
    · exact Or.inr (Or.inl hlt)
    · rcases List.le_total (parentFile a).toText (parentFile b).toText with hle | hle
      · exact Or.inl (Or.inr ⟨heq, List.not_lt.mpr hle⟩)
      · exact Or.inr (Or.inr ⟨heq.symm, List.not_lt.mpr hle⟩)
    · exact Or.inl (Or.inl hlt)
  · intro a b hab
    rcases writesBefore_iff.mp hab with hlt | ⟨heq, _⟩
    · exact Nat.le_of_lt hlt
    · exact Nat.le_of_eq heq.symm

theorem mem_namesIn {children : Children} {directory : Path} {name : Text} :
    name ∈ children.namesIn directory ↔ (directory, name) ∈ children := by
  rw [Children.namesIn, Ordered.mem_ofList, List.mem_map]
  constructor
  · rintro ⟨⟨other, _⟩, hmem, rfl⟩
    rw [List.mem_filter, decide_eq_true_eq] at hmem
    obtain ⟨hmem, rfl⟩ := hmem
    exact hmem
  · intro hmem
    exact ⟨_, List.mem_filter.mpr ⟨hmem, by simp⟩, rfl⟩

theorem mem_directories {children : Children} {directory : Path} :
    directory ∈ children.directories ↔ ∃ name, (directory, name) ∈ children := by
  rw [Children.directories, List.mem_eraseDups, List.mem_map]
  constructor
  · rintro ⟨⟨_, name⟩, hmem, rfl⟩
    exact ⟨name, hmem⟩
  · rintro ⟨name, hmem⟩
    exact ⟨_, hmem, rfl⟩

/-- Whether all noted modules are below the destination, by names that walks can enter. -/
def Noted (m : ModuleTree) (children : Children) : Prop :=
  ∀ c ∈ children, ∃ r name, c = (m.dest.below r, name) ∧
    ∀ part ∈ r ++ [name], Path.IsEnterable part

/-- What the lists of all directories come to, by the turn of each of them. -/
structure ParentsListed (m : ModuleTree) (base : Place) (rs : List Place) (s s' : Session) :
    Prop where
  children_eq : s'.children = s.children
  mem_iff : ∀ r, r ∈ rs ↔ ∃ name, (m.dest.below r, name) ∈ s.children
  lists : Lists rs base s.files s'.files
  turn : ∀ r ∈ rs, ∃ t t',
    Turn m rs (s.children.namesIn (m.dest.below r)) base r s.files t t' s'.files

theorem parentsListed_of_writeParents {base : Place} {s s' : Session} (hwell : s.files.WellFormed)
    (hdest : s.files.locate m.dest = .ok base) (hnoted : Noted m s.children)
    (h : m.writeParents.run s = .ok () s') : ∃ rs, ParentsListed m base rs s s' := by
  rw [writeParents, EStateM.run_bind, EStateM.run_get] at h
  dsimp only at h
  generalize hsorted : s.children.directories.mergeSort writesBefore = directories at h
  have hmem : ∀ d, d ∈ directories ↔ ∃ name, (d, name) ∈ s.children := by
    intro d
    rw [← hsorted, (List.mergeSort_perm _ _).mem_iff, mem_directories]
  -- the directories by what leads to them from the destination
  obtain ⟨rs, hrs⟩ : directories ∈ Set.range (List.map m.dest.below) := by
    rw [Set.range_list_map]
    intro d hd
    obtain ⟨name, hname⟩ := (hmem d).mp hd
    obtain ⟨r, _, heq, _⟩ := hnoted _ hname
    exact ⟨r, (congrArg Prod.fst heq).symm⟩
  have hrs_mem : ∀ r, r ∈ rs ↔ ∃ name, (m.dest.below r, name) ∈ s.children := by
    intro r
    rw [← hmem, ← hrs, List.mem_map_of_injective (below_injective m.dest)]
  have hparts : ∀ r name, (m.dest.below r, name) ∈ s.children →
      ∀ part ∈ r ++ [name], Path.IsEnterable part := by
    intro r name hchild
    obtain ⟨r', name', heq, hparts⟩ := hnoted _ hchild
    obtain ⟨hr, rfl⟩ := Prod.mk.inj heq
    rwa [below_injective m.dest hr]
  have hnodup : rs.Nodup := by
    refine List.Nodup.of_map m.dest.below ?_
    rw [hrs, ← hsorted, (List.mergeSort_perm _ _).nodup_iff]
    exact nodup_eraseDups _
  have horder : rs.Pairwise fun a b => b.length ≤ a.length := by
    have hpairwise := pairwise_mergeSort_writesBefore s.children.directories
    rw [hsorted, ← hrs, List.pairwise_map] at hpairwise
    refine hpairwise.imp fun hle => ?_
    simpa [Path.below] using hle
  rw [← hrs] at h
  obtain ⟨hchildren, hlists, hturns⟩ := lists_of_forM hwell hdest
    (fun r hr part hpart => by
      obtain ⟨name, hname⟩ := (hrs_mem r).mp hr
      exact hparts r name hname part (List.mem_append_left _ hpart))
    (fun r _ name hname => hparts r name (mem_namesIn.mp hname) name (by simp)) h
  refine ⟨rs, hchildren, hrs_mem, hlists, fun r hr => ?_⟩
  obtain ⟨first, last, rfl⟩ := List.append_of_mem hr
  obtain ⟨t, t', hfirst, hlisted, hlast⟩ := hturns first r last rfl
  exact ⟨t, t', turn_of_lists hnodup horder hfirst hlisted hlast⟩

end ModuleTree

end HostBindings
