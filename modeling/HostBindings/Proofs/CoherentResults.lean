import HostBindings.Proofs.EscapeRanges
import HostBindings.Proofs.ExhaustiveReadings
import HostBindings.Proofs.ParsedModules
import HostBindings.Proofs.PrintedUnits
import HostBindings.Proofs.ReadTrees

/-!
Coherent results. Compiling a source gives its text beside warnings, or no text and one error after
the warnings, and every diagnostic names the file. Two kinds of sources have no result: those with
an escape above the last code point, and those in which a setter of an object type takes the rest
of the arguments.
-/

namespace HostBindings

open Rust

namespace Rust

/-- A use that can be written: only a glob has no name. -/
def Use.IsNamed (u : Use) : Prop := u.glob = false → u.name.isSome = true

/-- Items in which every use can be written and every binding is legal, whatever the options put
into their paths. -/
abbrev Item.Writable : List Item → Prop :=
  Item.Throughout (fun _ => True) Use.IsNamed fun bindings => ∀ b ∈ bindings, b.IsLegal

theorem exists_renderUse {u : Use} (h : u.IsNamed) : ∃ line, renderUse u = some line := by
  rw [renderUse]
  dsimp only
  split
  · exact ⟨_, rfl⟩
  · rename_i hglob
    obtain ⟨name, hname⟩ := Option.isSome_iff_exists.mp (h (Bool.eq_false_iff.mpr hglob))
    rw [hname]
    exact ⟨_, rfl⟩

theorem exists_renderItems_cons {item : Item} {rest : List Item} {afterUse : Option Bool}
    (hitem : ∃ lines, renderItem item = some lines)
    (hrest : ∀ afterUse, ∃ lines, renderItems afterUse rest = some lines) :
    ∃ lines, renderItems afterUse (item :: rest) = some lines := by
  obtain ⟨isUse, hcons⟩ := renderItems_cons afterUse item rest
  obtain ⟨head, hhead⟩ := hitem
  obtain ⟨tail, htail⟩ := hrest (some isUse)
  exact ⟨_, by rw [hcons, hhead, htail]; rfl⟩

theorem Item.Writable.exists_renderItems {items : List Item} (h : Item.Writable items)
    (afterUse : Option Bool) : ∃ lines, renderItems afterUse items = some lines := by
  induction h generalizing afterUse with
  | nil => exact ⟨[], rfl⟩
  | use hu _ ih =>
      obtain ⟨line, hline⟩ := exists_renderUse hu
      exact exists_renderItems_cons ⟨[line], by rw [renderItem, hline]; rfl⟩ ih
  | block hblock _ ih =>
      obtain ⟨lines, hlines, _⟩ := allWritten_renderBlock hblock
      exact exists_renderItems_cons ⟨lines, hlines⟩ ih
  | scope _ _ _ ihinner ihrest =>
      obtain ⟨lines, hlines⟩ := ihinner none
      exact exists_renderItems_cons ⟨_, by rw [renderItem, hlines]; rfl⟩ ihrest

end Rust

namespace Composition

open Source

theorem writable_of_compose {options : Options} {m : Module} {u : SourceUnit}
    (h : (compose options m).result = .ok u) : Item.Writable u.items := by
  obtain ⟨links, items, hlinks, hitems, rfl⟩ := compose_eq_ok_iff.mp h
  have hQ := composable_lawful BindingType.stable_isSpelled options
  have hcomposed : Item.Writable (encloseInScripts m items) := by
    apply (hQ.encloseInScripts m (hQ.composeDeclarations .nil hitems)).mono
    · exact fun _ _ => trivial
    · rintro _ rfl
      exact nofun
  have huses : Item.Writable (links.map Item.use) :=
    Item.throughout_map_use fun u hu => (gives_uses m.body links hlinks u hu).named
  refine (huses.append ?_).append hcomposed
  rw [preludeItems]
  split
  · exact .nil
  · exact .use (fun _ => rfl) .nil

end Composition

theorem Rust.SourceUnit.isNamed_of_mem_hostUses {options : Options} {u : SourceUnit} {use : Use}
    (h : use ∈ u.hostUses options) : use.IsNamed := by
  obtain ⟨crate, name, rfl⟩ := exists_of_mem_hostUses h
  exact fun _ => rfl

theorem exists_render {options : Options} {m : Source.Module} {u : SourceUnit}
    (h : (compileModule options m).result = .ok u) : ∃ text, render u = .ok text := by
  obtain ⟨composed, hcomposed, rfl⟩ := (compileModule_eq_ok_iff options m u).mp h
  have hlegalized : Item.Writable composed.resolveCollisions.legalize.items :=
    SourceUnit.legal_legalize (Composition.writable_of_compose hcomposed)
  have hwritable : Item.Writable (finish options composed).items := by
    rw [finish]
    split
    · exact (Item.throughout_map_use fun _ => SourceUnit.isNamed_of_mem_hostUses).append hlegalized
    · exact hlegalized
  obtain ⟨lines, hlines⟩ := hwritable.exists_renderItems none
  exact ⟨_, by rw [render, hlines]⟩

theorem answers_compileModule (options : Options) {m : Source.Module} (h : m.isComplete = true) :
    (compileModule options m).Answers :=
  (Composition.answers_compose h).bind fun _ => Outcome.answers_pure _

namespace Source

theorem Concrete.IsFormed.hasPlainSetters {c : Concrete}
    (h : c.IsFormed fun t => t.kind ≠ .wordSet) : c.hasPlainSetters = true := by
  induction h with
  | token => rfl
  | @node label loc children hrequired hchildren ih =>
      rw [Concrete.hasPlainSetters, Concrete.havePlainSetters_iff.mpr ih, Bool.and_true,
        Bool.or_eq_true]
      refine Or.inl (decide_eq_true ?_)
      rintro rfl
      obtain ⟨s, hs, hsign⟩ := hrequired _
        (List.mem_cons_of_mem _ (List.mem_cons_of_mem _ List.mem_cons_self))
      obtain ⟨c, hc, rfl⟩ := List.mem_map.mp hs
      have hword : c.sign = .token .wordSet := of_decide_eq_true hsign
      cases hchildren c hc with
      | token hkind => exact hkind (Sign.token.inj hword)
      | node => cases hword

/-- The strings of a source hold no escape above the last code point. -/
def EscapesInRange (source : Text) : Prop :=
  ∀ t ∈ (Tokens.ofText source).tokens, t.kind = .string → StringLiteral.InRange t.text

/-- Whether no setter of an object type in a source takes the rest of the arguments. -/
def hasPlainSetters (source : Text) : Bool :=
  let tokens := (Tokens.ofText source).tokens
  match derive (tokens.map (·.kind)) with
  | .derived d => Concrete.havePlainSetters (Concrete.ofDerivation tokens d)
  | _ => true

theorem hasPlainSetters_of_ne_wordSet {source : Text}
    (h : ∀ t ∈ (Tokens.ofText source).tokens, t.kind ≠ .wordSet) :
    hasPlainSetters source = true := by
  rw [hasPlainSetters]
  rcases derive_cases ((Tokens.ofText source).tokens.map (·.kind)) with
    ⟨d, hd, hreads, _⟩ | ⟨_, hunfinished | ⟨position, _, hrefused⟩⟩
  · obtain ⟨_, hformed⟩ := Concrete.formed_ofDerivation h hreads nofun
    rw [hd]
    exact Concrete.havePlainSetters_iff.mpr fun c hc => (hformed c hc).hasPlainSetters
  · rw [hunfinished]
  · rw [hrefused]

/-- Parsing such a source gives a complete module, or a failure in the file. -/
theorem parse_cases (file : Option Text) {source : Text} (hescapes : EscapesInRange source)
    (hsetters : hasPlainSetters source = true) :
    (∃ m, Module.parse file source = .ok (.ok m) ∧ m.isComplete = true) ∨
    ∃ failure span, Module.parse file source = .ok (.error failure) ∧
      failure.span = some span ∧ span.file = file := by
  rw [hasPlainSetters] at hsetters
  rw [Module.parse]
  rcases derive_cases ((Tokens.ofText source).tokens.map (·.kind)) with
    ⟨d, hd, hreads, _⟩ | ⟨_, hunfinished | ⟨position, hlt, hrefused⟩⟩
  · rw [hd] at hsetters ⊢
    cases hstop : (Tokens.ofText source).stop with
    | some place => exact Or.inr ⟨_, _, rfl, rfl, rfl⟩
    | none =>
        have hstrings : ∀ t ∈ (Tokens.ofText source).tokens, t.kind = .string →
            Reader.Yields (fun _ => True) (StringLiteral.decode t.text) := by
          intro t ht hkind
          obtain ⟨text, htext⟩ := StringLiteral.decode_eq_ok (hescapes t ht hkind)
          exact ⟨text, htext, trivial⟩
        obtain ⟨m, hm, hcomplete⟩ := Reader.yields_module hreads hstrings hsetters
        exact Or.inl ⟨m, by dsimp only; rw [hm]; rfl, hcomplete⟩
  · rw [hunfinished]
    cases (Tokens.ofText source).stop with
    | some place => exact Or.inr ⟨_, _, rfl, rfl, rfl⟩
    | none => exact Or.inr ⟨_, _, rfl, rfl, rfl⟩
  · rw [List.length_map] at hlt
    rw [hrefused]
    dsimp only
    rw [List.getElem?_eq_getElem hlt]
    exact Or.inr ⟨_, _, rfl, rfl, rfl⟩

end Source

/-- What a result and its diagnostics say together: there is a text and all diagnostics are
warnings, or there is none and the last diagnostic is the only error. Every diagnostic names the
file. -/
structure UnitResult.IsCoherent (file : Option Text) (r : UnitResult) : Prop where
  answer : (r.rust.isSome = true ∧ ∀ d ∈ r.diagnostics, d.severity = .warning) ∨
    (r.rust = none ∧ ∃ warnings error, r.diagnostics = warnings ++ [error] ∧
      (∀ d ∈ warnings, d.severity = .warning) ∧ error.severity = .error)
  file : ∀ d ∈ r.diagnostics, d.span.file = file

theorem Warning.severity_of_mem {file : Option Text} {warnings : List Warning} {d : Diagnostic}
    (h : d ∈ warnings.map (Warning.toDiagnostic file)) :
    d.severity = .warning ∧ d.span.file = file := by
  obtain ⟨w, _, rfl⟩ := List.mem_map.mp h
  exact ⟨rfl, rfl⟩

theorem Failure.file_toDiagnostic {file : Option Text} {failure : Failure}
    (h : ∀ span ∈ failure.span, span.file = none ∨ span.file = file) :
    (failure.toDiagnostic file).span.file = file := by
  cases hspan : failure.span with
  | none => simp [Failure.toDiagnostic, hspan, Span.inFile]
  | some span =>
      rcases h span hspan with hfile | hfile
      · simp [Failure.toDiagnostic, hspan, Span.inFile, hfile]
      · cases hname : file with
        | none => simp [Failure.toDiagnostic, hspan, Span.inFile, hfile, hname]
        | some name => simp [Failure.toDiagnostic, hspan, Span.inFile, hfile, hname]

theorem UnitResult.isCoherent_failed {file : Option Text} (warnings : List Warning)
    {failure : Failure} (h : ∀ span ∈ failure.span, span.file = none ∨ span.file = file) :
    (UnitResult.failed file warnings failure).IsCoherent file := by
  refine ⟨Or.inr ⟨rfl, _, _, rfl, ?_, rfl⟩, ?_⟩
  · exact fun d hd => (Warning.severity_of_mem hd).1
  · refine List.forall_mem_append.mpr ⟨fun d hd => (Warning.severity_of_mem hd).2, ?_⟩
    exact List.forall_mem_singleton.mpr (Failure.file_toDiagnostic h)

/-- Compiling a source always gives a coherent result, whatever the options and the name of the
file, if the escapes of its strings are in range and its setters are plain. -/
theorem compileSource_coherent (options : Options) (file : Option Text) (source : Text)
    (hescapes : Source.EscapesInRange source) (hsetters : Source.hasPlainSetters source = true) :
    ∃ r, compileSource options file source = .ok r ∧ r.IsCoherent file := by
  rcases Source.parse_cases file hescapes hsetters with
    ⟨m, hparse, hcomplete⟩ | ⟨failure, span, hparse, hspan, hfile⟩
  · have hanswers := answers_compileModule options hcomplete
    rw [compileSource, hparse]
    cases hresult : (compileModule options m).result with
    | error halt =>
        obtain ⟨failure, rfl, hspan⟩ := hanswers halt hresult
        refine ⟨_, by simp only [bind, Except.bind, hresult]; rfl, ?_⟩
        exact UnitResult.isCoherent_failed _ fun span hmem => Or.inl (hspan span hmem)
    | ok unit =>
        obtain ⟨text, htext⟩ := exists_render hresult
        refine ⟨_, by simp only [bind, Except.bind, hresult, htext]; rfl, ?_⟩
        refine ⟨Or.inl ⟨rfl, ?_⟩, ?_⟩
        · exact fun d hd => (Warning.severity_of_mem hd).1
        · exact fun d hd => (Warning.severity_of_mem hd).2
  · refine ⟨_, by rw [compileSource, hparse]; rfl, ?_⟩
    refine UnitResult.isCoherent_failed [] fun other hother => Or.inr ?_
    rw [hspan] at hother
    cases hother
    exact hfile

/-- The import of a module by a string with an escape. -/
def escapedImport : Text := "import './\\u\x7b61\x7d';"

theorem escapedImport_coherent :
    ∃ r, compileSource .standard (some "a.d.ts") escapedImport = .ok r ∧
      r.IsCoherent (some "a.d.ts") := by
  have hlengths : ∀ t ∈ (Source.Tokens.ofText escapedImport).tokens, t.text.length ≤ 11 := by
    decide +kernel
  have hwords : ∀ t ∈ (Source.Tokens.ofText escapedImport).tokens, t.kind ≠ .wordSet := by
    decide +kernel
  exact compileSource_coherent .standard _ escapedImport
    (fun t ht _ => Source.StringLiteral.inRange_of_length (hlengths t ht))
    (Source.hasPlainSetters_of_ne_wordSet hwords)

/-- An interface with a setter that takes the rest of the arguments. -/
def restSetter : Text := "interface A \x7b set x(...y); \x7d"

/-- Whether the reading of a derivation of that source breaks off. -/
def breaksOff (d : Grammar.Derivation Source.Terminal Source.Nonterminal) : Bool :=
  match Source.Reader.module
    (Source.Concrete.ofDerivation (Source.Tokens.ofText restSetter).tokens d) with
  | .error .incomplete => true
  | _ => false

theorem allReadings_restSetter :
    Source.allReadings breaksOff 16 ((Source.Tokens.ofText restSetter).tokens.map (·.kind)) =
      true := by
  decide +kernel

theorem parse_restSetter : Source.Module.parse none restSetter = .error .incomplete := by
  have hstop : (Source.Tokens.ofText restSetter).stop = none := by decide +kernel
  obtain ⟨d, hparse, hbreaks⟩ := Source.parse_of_allReadings none hstop allReadings_restSetter
  rw [hparse]
  rw [breaksOff] at hbreaks
  split at hbreaks
  · rename_i hmodule
    exact congrArg (Except.map Except.ok) hmodule
  · cases hbreaks

/-- Without plain setters there may be no result. -/
theorem restSetter_without_result :
    Source.EscapesInRange restSetter ∧ ¬ ∃ r, compileSource .standard none restSetter = .ok r := by
  have hkinds : ∀ t ∈ (Source.Tokens.ofText restSetter).tokens, t.kind ≠ .string := by
    decide +kernel
  refine ⟨fun t ht hkind => absurd hkind (hkinds t ht), ?_⟩
  rintro ⟨r, hr⟩
  rw [compileSource, parse_restSetter] at hr
  cases hr

end HostBindings
