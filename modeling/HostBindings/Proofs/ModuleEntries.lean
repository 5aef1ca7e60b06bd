import HostBindings.ModuleTree.ParentModules
import HostBindings.Proofs.FileTrees
import HostBindings.Proofs.IdentifierLaws
import Mathlib.Data.List.Basic

/-!
Entries of parent modules as they are read: what the lists of entries in files say, and the files
that one gets to by following them.
-/

namespace HostBindings

theorem Path.ofText_join {parts : List Text} (hne : parts ≠ [])
    (hparts : ∀ part ∈ parts, isPart part = true ∧ CodePoint.ofChar '/' ∉ part) :
    Path.ofText (Text.join "/" parts) = { parts := parts } := by
  have hsplit : (Text.join "/" parts).split (CodePoint.ofChar '/') = parts :=
    Text.split_join hne fun part hpart => (hparts part hpart).2
  have hroot : rootOf (Text.join "/" parts) = [] := by
    obtain ⟨part, rest, rfl⟩ := List.exists_cons_of_ne_nil hne
    obtain ⟨hpart, hslash⟩ := hparts part List.mem_cons_self
    obtain ⟨c, others, rfl⟩ : ∃ c others, part = c :: others := by
      refine List.exists_cons_of_ne_nil ?_
      rintro rfl
      exact absurd hpart (by decide)
    have hc : (c == CodePoint.ofChar '/') = false := by
      simpa using Ne.symm (List.ne_of_not_mem_cons hslash)
    have hstart : ∃ more, Text.join "/" ((c :: others) :: rest) = c :: more := by
      cases rest with
      | nil => exact ⟨others, by simp [Text.join, List.intercalate]⟩
      | cons next rest => exact ⟨_, rfl⟩
    obtain ⟨more, hmore⟩ := hstart
    rw [rootOf, hmore, List.takeWhile_cons, hc]
    rfl
  rw [ofText, hroot, hsplit, List.filter_eq_self.mpr fun part hpart => (hparts part hpart).1]

namespace ModuleTree

/-- An entry: where the file of a module is, seen from the file with the entry, and the module's
name. -/
structure Entry where
  location : Text
  name : Text
deriving DecidableEq, Repr

namespace Entry

def opening : Text := "#[path = \""

def middle : Text := "\"]\n#[allow(non_snake_case)]\npub mod "

def closing : Text := ";\n"

def text (e : Entry) : Text := opening ++ e.location ++ middle ++ e.name ++ closing

/-- The text of several entries. -/
def listText (es : List Entry) : Text := es.flatMap text

theorem text_mk (m : ModuleTree) (location name : Text) :
    text { location, name := m.options.scopeName name } = m.entry location name := rfl

/-- Whether a code point between quotes stands for itself. -/
def isPlain (c : CodePoint) : Bool := c != '"' && c != '\\' && c != '\r'

/-- Whether a code point can stand in a name, which goes on up to a semicolon. -/
def isInName (c : CodePoint) : Bool := c != ';'

/-- The entry that a text starts with, and the text behind it. -/
def read? (t : Text) : Option (Entry × Text) := do
  let t ← t.dropPrefix? opening
  let location := t.takeWhile isPlain
  let t ← (t.dropWhile isPlain).dropPrefix? middle
  let name := t.takeWhile isInName
  let t ← (t.dropWhile isInName).dropPrefix? closing
  return ({ location, name }, t)

def readAll : Nat → Text → Option (List Entry)
  | _, [] => some []
  | 0, _ :: _ => none
  | bound + 1, c :: t => do
    let (e, t) ← read? (c :: t)
    let es ← readAll bound t
    return e :: es

/-- The entries that a text consists of. -/
def ofText (t : Text) : Option (List Entry) := readAll t.length t

/-- Whether an entry is read as it is written. -/
structure IsReadable (e : Entry) : Prop where
  location : e.location.all isPlain = true
  name : e.name.all isInName = true

theorem read?_text_append {e : Entry} (h : e.IsReadable) (rest : Text) :
    read? (e.text ++ rest) = some (e, rest) := by
  obtain ⟨location, name⟩ := e
  obtain ⟨hlocation, hname⟩ := h
  have htext : text ⟨location, name⟩ ++ rest =
      opening ++ (location ++ (middle ++ (name ++ (closing ++ rest)))) := by
    simp only [text, List.append_assoc]
  have hplain : ∀ c ∈ location, isPlain c = true := List.all_eq_true.mp hlocation
  have hinside : ∀ c ∈ name, isInName c = true := List.all_eq_true.mp hname
  have htake : (location ++ (middle ++ (name ++ (closing ++ rest)))).takeWhile isPlain =
      location := by
    rw [List.takeWhile_append_of_pos hplain]
    simp [middle, Text.ofString, isPlain]
  have hdrop : (location ++ (middle ++ (name ++ (closing ++ rest)))).dropWhile isPlain =
      middle ++ (name ++ (closing ++ rest)) := by
    rw [List.dropWhile_append_of_pos hplain]
    simp [middle, Text.ofString, isPlain]
  have htake' : (name ++ (closing ++ rest)).takeWhile isInName = name := by
    rw [List.takeWhile_append_of_pos hinside]
    simp [closing, Text.ofString, isInName]
  have hdrop' : (name ++ (closing ++ rest)).dropWhile isInName =
      closing ++ rest := by
    rw [List.dropWhile_append_of_pos hinside]
    simp [closing, Text.ofString, isInName]
  rw [htext, read?, Text.dropPrefix?_append]
  simp only [Option.bind_eq_bind, Option.bind_some]
  rw [htake, hdrop, Text.dropPrefix?_append]
  simp only [Option.bind_some]
  rw [htake', hdrop', Text.dropPrefix?_append]
  rfl

theorem one_le_length_text (e : Entry) : 1 ≤ e.text.length := by
  have hopening : opening.length = 10 := by decide
  simp only [text, List.length_append, hopening]
  omega

theorem readAll_listText {es : List Entry} (h : ∀ e ∈ es, e.IsReadable) {bound : Nat}
    (hbound : es.length ≤ bound) : readAll bound (listText es) = some es := by
  induction es generalizing bound with
  | nil => cases bound <;> rfl
  | cons e rest ih =>
      obtain ⟨bound, rfl⟩ : ∃ n, bound = n + 1 :=
        Nat.exists_eq_succ_of_ne_zero (by rintro rfl; exact absurd hbound (by simp))
      have hread := read?_text_append (h e List.mem_cons_self) (listText rest)
      have hrest := ih (fun other hother => h other (List.mem_cons_of_mem _ hother))
        (Nat.le_of_succ_le_succ hbound)
      have htext : listText (e :: rest) = e.text ++ listText rest := List.flatMap_cons
      obtain ⟨c, t, hct⟩ : ∃ c t, e.text ++ listText rest = c :: t := ⟨_, _, rfl⟩
      rw [htext, hct, readAll, ← hct, hread]
      simp only [Option.bind_eq_bind, Option.bind_some, hrest]
      rfl

theorem length_le_listText (es : List Entry) : es.length ≤ (listText es).length := by
  induction es with
  | nil => simp
  | cons e rest ih =>
      have htext : listText (e :: rest) = e.text ++ listText rest := List.flatMap_cons
      have hone := one_le_length_text e
      rw [htext, List.length_append, List.length_cons]
      omega

/-- A list of entries is read as it is written. -/
theorem ofText_listText {es : List Entry} (h : ∀ e ∈ es, e.IsReadable) :
    ofText (listText es) = some es :=
  readAll_listText h (length_le_listText es)

theorem listText_eq_nil_iff {es : List Entry} : listText es = [] ↔ es = [] := by
  constructor
  · intro h
    have hlength := length_le_listText es
    rw [h] at hlength
    exact List.length_eq_zero_iff.mp (Nat.le_zero.mp hlength)
  · rintro rfl
    rfl

theorem all_isInName_scopeName (o : Options) (raw : Text) :
    (o.scopeName raw).all isInName = true := by
  have hword : ∀ {word : Text}, Identifier.isWord word = true → word.all isInName = true := by
    intro word h
    rw [List.all_eq_true]
    intro c hc
    rw [isInName, bne_iff_ne]
    rintro rfl
    exact absurd (Identifier.isWord_iff.mp h _ hc) (by decide)
  rw [Options.scopeName, Identifier.scopeName]
  rcases Identifier.isRust_rustName (raw ++ o.moduleSuffix) with ⟨h, _⟩ | ⟨word, hkeyword, heq⟩
  · exact hword h
  · rw [heq, List.all_append, hword (Identifier.isWord_of_mem_keywords hkeyword)]
    rfl

/-- The place that an entry in the file at `place` points to. -/
def target (place : Place) (e : Entry) : Place := (Path.ofText e.location).place place.dropLast

/-- The entries of the module file at a place, behind the text of a unit if the file has one. -/
def ofFile (t : FileTree) (own : Place → Option Text) (place : Place) : Option (List Entry) :=
  match t.node? place with
  | some (.file bytes) => do
    let text ← Text.Utf8.decode bytes
    match own place with
    | none => ofText text
    | some rust =>
      let list ← text.dropPrefix? rust
      if list.isEmpty then return []
      ofText (← list.dropPrefix? "\n")
  | _ => none

section

variable {t : FileTree} {own : Place → Option Text} {place : Place} {rust : Text} {es : List Entry}

theorem ofFile_eq_ofText {text : Text} (hown : own place = none)
    (hnode : t.node? place = some (.file (Text.Utf8.encode text)))
    (htext : text.any CodePoint.isSurrogate = false) : ofFile t own place = ofText text := by
  rw [ofFile, hnode, hown]
  dsimp only
  rw [Text.Utf8.decode_encode htext]
  rfl

theorem ofFile_of_list (hown : own place = none)
    (hnode : t.node? place = some (.file (Text.Utf8.encode (listText es))))
    (htext : (listText es).any CodePoint.isSurrogate = false) (hread : ∀ e ∈ es, e.IsReadable) :
    ofFile t own place = some es := by
  rw [ofFile_eq_ofText hown hnode htext, ofText_listText hread]

theorem ofFile_of_unit (hown : own place = some rust)
    (hnode : t.node? place = some (.file (Text.Utf8.encode rust)))
    (hrust : rust.any CodePoint.isSurrogate = false) : ofFile t own place = some [] := by
  have hrest : rust.dropPrefix? rust = some [] := by
    have h := Text.dropPrefix?_append rust []
    rwa [List.append_nil] at h
  rw [ofFile, hnode, hown]
  dsimp only
  rw [Text.Utf8.decode_encode hrust]
  simp [hrest]

theorem ofFile_of_append (hown : own place = some rust)
    (hnode : t.node? place = some (.file (Text.Utf8.encode rust ++ Text.Utf8.encode "\n" ++
      Text.Utf8.encode (listText es))))
    (hrust : rust.any CodePoint.isSurrogate = false)
    (htext : (listText es).any CodePoint.isSurrogate = false) (hread : ∀ e ∈ es, e.IsReadable) :
    ofFile t own place = some es := by
  have hall : (rust ++ (Text.ofString "\n" ++ listText es)).any CodePoint.isSurrogate = false := by
    rw [List.any_append, List.any_append, hrust, htext]
    rfl
  have hnonempty : (Text.ofString "\n" ++ listText es).isEmpty = false := rfl
  rw [ofFile, hnode, hown]
  dsimp only
  rw [List.append_assoc, ← Text.Utf8.encode_append, ← Text.Utf8.encode_append,
    Text.Utf8.decode_encode hall]
  simp only [Option.bind_eq_bind, Option.bind_some, Text.dropPrefix?_append, hnonempty]
  exact ofText_listText hread

end

/-- The place that one gets to from a place by entries of the files on the way, given by their
numbers. -/
def follow (lists : Place → List Entry) (place : Place) : List Nat → Option Place
  | [] => some place
  | i :: route => (lists place)[i]?.bind fun e => follow lists (e.target place) route

end Entry

end ModuleTree

end HostBindings
