import HostBindings.Compile
import HostBindings.Proofs.ExhaustiveReadings

/-!
A source without declarations compiles to a unit without text. How the grammar reads an empty source
is found by search.
-/

namespace HostBindings

namespace Source

/-- Whether an empty module is read from a derivation of no tokens. -/
def readsEmpty (d : Grammar.Derivation Terminal Nonterminal) : Bool :=
  match Reader.module (Concrete.ofDerivation [] d) with
  | .ok m => m.body.isEmpty && m.loc.isNone
  | .error _ => false

theorem allReadings_nil : allReadings readsEmpty 16 [] = true := by
  decide +kernel

theorem Module.parse_nil (file : Option Text) :
    Module.parse file [] = .ok (.ok { body := [], loc := none }) := by
  have hstop : (Tokens.ofText []).stop = none := rfl
  obtain ⟨d, hparse, hempty⟩ := parse_of_allReadings file hstop allReadings_nil
  rw [hparse]
  rw [readsEmpty] at hempty
  split at hempty
  · rename_i m hmodule
    obtain ⟨body, loc⟩ := m
    rw [Bool.and_eq_true, List.isEmpty_iff, Option.isNone_iff_eq_none] at hempty
    obtain ⟨rfl, rfl⟩ := hempty
    exact congrArg (Except.map Except.ok) hmodule
  · cases hempty

end Source

theorem compileModule_nil (options : Options) :
    compileModule options { body := [], loc := none } =
      { result := .ok { items := [] }, warnings := [] } := by
  have hcompose : Composition.compose options { body := [], loc := none } =
    pure { items := [] } := rfl
  have hfinish : finish options { items := [] } = { items := [] } := by
    rw [finish]
    split
    · rfl
    · rfl
  rw [compileModule, hcompose]
  change Outcome.mk [] (.ok (finish options { items := [] })) = _
  rw [hfinish]

theorem compileSource_nil (options : Options) (file : Option Text) :
    compileSource options file [] = .ok { file, rust := some [], diagnostics := [] } := by
  rw [compileSource, Source.Module.parse_nil]
  simp only [bind, Except.bind, compileModule_nil]
  rfl

end HostBindings
