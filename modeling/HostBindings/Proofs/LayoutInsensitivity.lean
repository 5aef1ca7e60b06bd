import HostBindings.Proofs.CoherentResults
import HostBindings.Proofs.RelocatedReading
import HostBindings.Proofs.RelocatedUnits

/-!
Layout does not matter. Two texts with the same kinds and texts of tokens, in order, differ in the
white space and the comments between them only. They are refused at the same token with the same
message, or read to the same module but for its places, and compiled to the same text with the same
diagnostics but for their places.
-/

namespace HostBindings

/-- A diagnostic without line and column. -/
def Diagnostic.unplaced (d : Diagnostic) : Diagnostic :=
  { d with span := { d.span with line := none, column := none } }

/-- A result whose diagnostics have no lines and columns. -/
def UnitResult.unplaced (r : UnitResult) : UnitResult :=
  { r with diagnostics := r.diagnostics.map Diagnostic.unplaced }

namespace Source

/-- What a token says, whatever its place. -/
def Token.content (t : Token) : Terminal × Text := (t.kind, t.text)

/-- A module with all places that it has moved to the start. -/
def Module.unplaced (m : Module) : Module := m.relocate fun _ => Location.origin

/-- The failure at a token that cannot stand where it is, or at the end of a text that is not
complete. -/
def unexpected (file : Option Text) (text : Text) (loc : Option Location) : Failure :=
  { cause := .unexpectedToken text, span := some { Span.ofLocation loc with file } }

/-- How two texts are read alike, given their tokens. -/
inductive ReadAlike (file : Option Text) (s s' : Text) (tokens tokens' : List Token) : Prop
  /-- Both are refused at the same token. -/
  | refused (position : Nat) (t t' : Token) (content : t'.content = t.content)
    (found : tokens[position]? = some t) (found' : tokens'[position]? = some t')
    (parsed : Module.parse file s = .ok (.error (unexpected file t.text (some t.loc))))
    (parsed' : Module.parse file s' = .ok (.error (unexpected file t.text (some t'.loc))))
  /-- Both end too early. -/
  | unfinished (parsed : Module.parse file s = .ok (.error (unexpected file [] none)))
    (parsed' : Module.parse file s' = .ok (.error (unexpected file [] none)))
  | read (m m' : Module) (same : m.unplaced = m'.unplaced)
    (parsed : Module.parse file s = .ok (.ok m)) (parsed' : Module.parse file s' = .ok (.ok m'))
  /-- Both have the same fault, for one of the two reasons that there are. -/
  | fault (e : Fault) (reason : ¬ (EscapesInRange s ∧ hasPlainSetters s = true))
    (parsed : Module.parse file s = .error e) (parsed' : Module.parse file s' = .error e)

end Source

namespace Source

variable {tokens tokens' : List Token}

theorem map_relocate_eq (h : tokens.map Token.content = tokens'.map Token.content) :
    tokens.map (Token.relocate fun _ => Location.origin) =
      tokens'.map (Token.relocate fun _ => Location.origin) := by
  have hplaced := congrArg
    (List.map fun content : Terminal × Text => Token.mk content.1 content.2 Location.origin) h
  rwa [List.map_map, List.map_map] at hplaced

theorem map_kind_eq (h : tokens.map Token.content = tokens'.map Token.content) :
    tokens.map (·.kind) = tokens'.map (·.kind) := by
  have hkinds := congrArg (List.map Prod.fst) h
  rwa [List.map_map, List.map_map] at hkinds

theorem module_unplaced (d : Grammar.Derivation Terminal Nonterminal) :
    Module.unplaced <$> Reader.module (Concrete.ofDerivation tokens d) =
      Reader.module (Concrete.ofDerivation
        (tokens.map (Token.relocate fun _ => Location.origin)) d) := by
  rw [Concrete.ofDerivation_relocate, Reader.module_relocate]
  rfl

theorem not_inRange_of_fault {file : Option Text} {s : Text} {e : Fault}
    (h : Module.parse file s = .error e) : ¬ (EscapesInRange s ∧ hasPlainSetters s = true) := by
  rintro ⟨hescapes, hsetters⟩
  rcases parse_cases file hescapes hsetters with ⟨m, hm, _⟩ | ⟨failure, span, hfailure, _⟩
  · rw [h] at hm
    cases hm
  · rw [h] at hfailure
    cases hfailure

/-- Texts with the same tokens are read alike. -/
theorem readAlike_of_content (file : Option Text) {s s' : Text}
    (hs : Tokens.ofText s = ⟨tokens, none⟩) (hs' : Tokens.ofText s' = ⟨tokens', none⟩)
    (h : tokens.map Token.content = tokens'.map Token.content) :
    ReadAlike file s s' tokens tokens' := by
  -- the verdict depends on the kinds of the tokens only, so both texts have the same one
  have hkinds := map_kind_eq h
  rcases derive_cases (tokens.map (·.kind)) with
    ⟨d, hd, _⟩ | ⟨_, hunfinished | ⟨position, hlt, hrefused⟩⟩
  · have hparse : Module.parse file s =
        (Reader.module (Concrete.ofDerivation tokens d)).map .ok := by
      rw [Module.parse, hs, hd]
    have hparse' : Module.parse file s' =
        (Reader.module (Concrete.ofDerivation tokens' d)).map .ok := by
      rw [Module.parse, hs', ← hkinds, hd]
    have hmodules : Module.unplaced <$> Reader.module (Concrete.ofDerivation tokens d) =
        Module.unplaced <$> Reader.module (Concrete.ofDerivation tokens' d) := by
      rw [module_unplaced, module_unplaced, map_relocate_eq h]
    cases hm : Reader.module (Concrete.ofDerivation tokens d) with
    | error e =>
        cases hm' : Reader.module (Concrete.ofDerivation tokens' d) with
        | error e' =>
            rw [hm] at hparse hmodules
            rw [hm'] at hparse' hmodules
            cases hmodules
            exact .fault e (not_inRange_of_fault hparse) hparse hparse'
        | ok m' =>
            rw [hm, hm'] at hmodules
            cases hmodules
    | ok m =>
        cases hm' : Reader.module (Concrete.ofDerivation tokens' d) with
        | error e' =>
            rw [hm, hm'] at hmodules
            cases hmodules
        | ok m' =>
            rw [hm] at hparse hmodules
            rw [hm'] at hparse' hmodules
            exact .read m m' (Except.ok.inj hmodules) hparse hparse'
  · refine .unfinished ?_ ?_
    · rw [Module.parse, hs, hunfinished]
      rfl
    · rw [Module.parse, hs', ← hkinds, hunfinished]
      rfl
  · have hcontent := congrArg (·[position]?) h
    simp only [List.getElem?_map] at hcontent
    rw [List.length_map] at hlt
    have hfound := List.getElem?_eq_getElem hlt
    rw [hfound, Option.map_some, eq_comm, Option.map_eq_some_iff] at hcontent
    obtain ⟨t', hfound', hcontent⟩ := hcontent
    refine .refused position _ t' hcontent hfound hfound' ?_ ?_
    · rw [Module.parse, hs, hrefused]
      dsimp only
      rw [hfound]
      rfl
    · rw [Module.parse, hs', ← hkinds, hrefused]
      dsimp only
      rw [hfound', show tokens[position].text = t'.text from (congrArg Prod.snd hcontent).symm]
      rfl

end Source

/-- What compilation reports of an outcome. -/
def Outcome.report (file : Option Text) (outcome : Outcome Rust.SourceUnit) :
    Except Fault UnitResult :=
  match outcome.result with
  | .error (.fault fault) => .error fault
  | .error (.failure failure) => return .failed file outcome.warnings failure
  | .ok unit => do
    let rust ← Rust.render unit
    return { file, rust := some rust
             diagnostics := outcome.warnings.map (Warning.toDiagnostic file) }

theorem compileSource_of_module {options : Options} {file : Option Text} {source : Text}
    {m : Source.Module} (h : Source.Module.parse file source = .ok (.ok m)) :
    compileSource options file source = (compileModule options m).report file := by
  rw [compileSource, h]
  rfl

theorem compileSource_of_failure {options : Options} {file : Option Text} {source : Text}
    {failure : Failure} (h : Source.Module.parse file source = .ok (.error failure)) :
    compileSource options file source = .ok (.failed file [] failure) := by
  rw [compileSource, h]
  rfl

section

variable (f : Location → Location)

theorem Warning.unplaced_toDiagnostic (file : Option Text) (w : Warning) :
    ((w.relocate f).toDiagnostic file).unplaced = (w.toDiagnostic file).unplaced := rfl

theorem Failure.unplaced_toDiagnostic (file : Option Text) (failure : Failure) :
    ((failure.relocate f).toDiagnostic file).unplaced =
      (failure.toDiagnostic file).unplaced := by
  obtain ⟨cause, declaration, member, span⟩ := failure
  cases span with
  | none => rfl
  | some span =>
      obtain ⟨own, line, column⟩ := span
      cases own <;> cases line <;> cases column <;> rfl

theorem UnitResult.unplaced_failed (file : Option Text) (warnings : List Warning)
    (failure : Failure) :
    (failed file (warnings.map (Warning.relocate f)) (failure.relocate f)).unplaced =
      (failed file warnings failure).unplaced := by
  simp [failed, unplaced, Function.comp_def, Warning.unplaced_toDiagnostic,
    Failure.unplaced_toDiagnostic]

theorem Outcome.unplaced_report (file : Option Text) (x : Outcome Rust.SourceUnit) :
    ((Rust.SourceUnit.relocate f <$> x.relocate f).report file).map UnitResult.unplaced =
      (x.report file).map UnitResult.unplaced := by
  obtain ⟨warnings, result⟩ := x
  rcases result with (failure | fault) | unit
  · exact congrArg Except.ok (UnitResult.unplaced_failed f file warnings failure)
  · rfl
  · have hmoved : Rust.SourceUnit.relocate f <$> (Outcome.mk warnings (.ok unit)).relocate f =
        ⟨warnings.map (Warning.relocate f), .ok (unit.relocate f)⟩ :=
      congrArg (Outcome.mk · _) (List.append_nil _)
    rw [hmoved]
    simp only [report, Rust.render_relocate]
    cases Rust.render unit with
    | error e => rfl
    | ok rust =>
        refine congrArg Except.ok ?_
        simp [UnitResult.unplaced, Function.comp_def, Warning.unplaced_toDiagnostic]

end

theorem compileSource_unplaced (options : Options) (file : Option Text) {s s' : Text}
    {tokens tokens' : List Source.Token} (h : Source.ReadAlike file s s' tokens tokens') :
    (compileSource options file s).map UnitResult.unplaced =
      (compileSource options file s').map UnitResult.unplaced := by
  cases h with
  | refused position t t' content found found' parsed parsed' =>
      rw [compileSource_of_failure parsed, compileSource_of_failure parsed']
      exact congrArg Except.ok (UnitResult.unplaced_failed (fun _ => t'.loc) file [] _).symm
  | unfinished parsed parsed' =>
      rw [compileSource_of_failure parsed, compileSource_of_failure parsed']
  | fault e reason parsed parsed' => rw [compileSource, compileSource, parsed, parsed']
  | read m m' same parsed parsed' =>
      have hreport := fun module : Source.Module =>
        Outcome.unplaced_report (fun _ => Location.origin) file (compileModule options module)
      simp only [← compileModule_relocate] at hreport
      rw [compileSource_of_module parsed, compileSource_of_module parsed', ← hreport m,
        ← hreport m']
      exact congrArg (fun module => ((compileModule options module).report file).map _) same

/-- Texts with the same tokens are read alike, and compiled to the same text with the same
diagnostics apart from line and column. -/
theorem compileSource_ignores_layout (options : Options) (file : Option Text) (s s' : Text)
    (tokens tokens' : List Source.Token) (hs : Source.Tokens.ofText s = ⟨tokens, none⟩)
    (hs' : Source.Tokens.ofText s' = ⟨tokens', none⟩)
    (h : tokens.map Source.Token.content = tokens'.map Source.Token.content) :
    Source.ReadAlike file s s' tokens tokens' ∧
      (compileSource options file s).map UnitResult.unplaced =
        (compileSource options file s').map UnitResult.unplaced := by
  have halike := Source.readAlike_of_content file hs hs' h
  exact ⟨halike, compileSource_unplaced options file halike⟩

/-- A variable on one line. -/
def plainVariable : Text := "declare var x: \x7b\x7d;"

/-- The same variable on lines of its own, with comments. -/
def spacedVariable : Text := "// a value\ndeclare\n\tvar x /* any */ : \x7b\x7d\n;"

theorem spacedVariable_ignores_layout :
    Source.ReadAlike (some "a.d.ts") plainVariable spacedVariable
      (Source.Tokens.ofText plainVariable).tokens (Source.Tokens.ofText spacedVariable).tokens ∧
      (compileSource .standard (some "a.d.ts") plainVariable).map UnitResult.unplaced =
        (compileSource .standard (some "a.d.ts") spacedVariable).map UnitResult.unplaced :=
  compileSource_ignores_layout .standard _ plainVariable spacedVariable _ _ (by decide +kernel)
    (by decide +kernel) (by decide +kernel)

/-- The setter that takes the rest of the arguments, in another layout. -/
def spacedRestSetter : Text := "interface A\n\x7b\n\tset x(... y); // all\n\x7d"

/-- Two texts with the same tokens may both have a fault, neither a failure nor a module. -/
theorem restSetter_unread :
    (Source.Tokens.ofText restSetter).stop = none ∧
    (Source.Tokens.ofText spacedRestSetter).stop = none ∧
    (Source.Tokens.ofText restSetter).tokens.map Source.Token.content =
      (Source.Tokens.ofText spacedRestSetter).tokens.map Source.Token.content ∧
    ¬ ∃ r r', Source.Module.parse none restSetter = .ok r ∧
      Source.Module.parse none spacedRestSetter = .ok r' := by
  refine ⟨by decide +kernel, by decide +kernel, by decide +kernel, ?_⟩
  rintro ⟨r, r', hr, _⟩
  rw [parse_restSetter] at hr
  cases hr

end HostBindings
