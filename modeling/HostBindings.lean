import HostBindings.Binding.Basic
import HostBindings.Binding.Erasure
import HostBindings.Binding.Type
import HostBindings.Catalog
import HostBindings.Catalog.BrowserTypes
import HostBindings.Catalog.LanguageTypes
import HostBindings.Catalog.StringTypes
import HostBindings.CommandLine.Arguments
import HostBindings.CommandLine.Command
import HostBindings.CommandLine.Report
import HostBindings.Compile
import HostBindings.Composition.Unit
import HostBindings.Composition.Uses
import HostBindings.Diagnostic
import HostBindings.Failure
import HostBindings.FileTree
import HostBindings.Grammar.Chart
import HostBindings.Grammar.Derivation
import HostBindings.Grammar.Pattern
import HostBindings.Grammar.Rule
import HostBindings.Identifier
import HostBindings.Lowering.Declarations
import HostBindings.Lowering.Members
import HostBindings.Lowering.Types
import HostBindings.Main
import HostBindings.ModuleTree.Layout
import HostBindings.ModuleTree.ParentModules
import HostBindings.ModuleTree.Run
import HostBindings.ModuleTree.Session
import HostBindings.Options
import HostBindings.Ordered
import HostBindings.Outcome
import HostBindings.Path
import HostBindings.Proofs.BoundaryClosure
import HostBindings.Proofs.CallbackParameters
import HostBindings.Proofs.ChartColumns
import HostBindings.Proofs.ChartReadings
import HostBindings.Proofs.ChosenDerivations
import HostBindings.Proofs.CoherentResults
import HostBindings.Proofs.CollisionFreedom
import HostBindings.Proofs.CompleteModules
import HostBindings.Proofs.ComposedUnits
import HostBindings.Proofs.ConcreteOutlines
import HostBindings.Proofs.DeclarationGrammar
import HostBindings.Proofs.DeclarationOrder
import HostBindings.Proofs.Discovery
import HostBindings.Proofs.EmptySources
import HostBindings.Proofs.ErasedTypes
import HostBindings.Proofs.ErasureLaws
import HostBindings.Proofs.ErasureSubstitution
import HostBindings.Proofs.EscapeRanges
import HostBindings.Proofs.ExhaustiveReadings
import HostBindings.Proofs.ExportLinkage
import HostBindings.Proofs.FileTrees
import HostBindings.Proofs.FilledCharts
import HostBindings.Proofs.FoldedTypes
import HostBindings.Proofs.FreshModules
import HostBindings.Proofs.FreshNames
import HostBindings.Proofs.GrammarReadings
import HostBindings.Proofs.HiddenSurface
import HostBindings.Proofs.HostImports
import HostBindings.Proofs.HostNames
import HostBindings.Proofs.HostSurface
import HostBindings.Proofs.IdentifierLaws
import HostBindings.Proofs.KeptNames
import HostBindings.Proofs.LayoutInsensitivity
import HostBindings.Proofs.LegalBindings
import HostBindings.Proofs.LegalNames
import HostBindings.Proofs.LexedTexts
import HostBindings.Proofs.Lexemes
import HostBindings.Proofs.LoweringResults
import HostBindings.Proofs.MemberAccounts
import HostBindings.Proofs.ModuleEntries
import HostBindings.Proofs.ModuleReach
import HostBindings.Proofs.NameResolution
import HostBindings.Proofs.NamespaceFlattening
import HostBindings.Proofs.NamespaceLinks
import HostBindings.Proofs.NormalTypes
import HostBindings.Proofs.NumberedOverloads
import HostBindings.Proofs.OrderedSets
import HostBindings.Proofs.Origins
import HostBindings.Proofs.ParameterNames
import HostBindings.Proofs.ParentConsistency
import HostBindings.Proofs.ParentListings
import HostBindings.Proofs.ParsedModules
import HostBindings.Proofs.PlacedOrigins
import HostBindings.Proofs.PrintedBindings
import HostBindings.Proofs.PrintedTypes
import HostBindings.Proofs.PrintedUnits
import HostBindings.Proofs.QualifiedReferences
import HostBindings.Proofs.QuotedTexts
import HostBindings.Proofs.ReadBackTypes
import HostBindings.Proofs.ReadTrees
import HostBindings.Proofs.Receivers
import HostBindings.Proofs.RelocatedLowering
import HostBindings.Proofs.RelocatedReading
import HostBindings.Proofs.RelocatedUnits
import HostBindings.Proofs.Relocation
import HostBindings.Proofs.RootNames
import HostBindings.Proofs.RunPhases
import HostBindings.Proofs.RustLiterals
import HostBindings.Proofs.Scheduling
import HostBindings.Proofs.ScopeAssembly
import HostBindings.Proofs.SettledNames
import HostBindings.Proofs.SourceSegments
import HostBindings.Proofs.SpecifierTargets
import HostBindings.Proofs.TextLaws
import HostBindings.Proofs.Traversal
import HostBindings.Proofs.TypeReplacement
import HostBindings.Proofs.UniqueNames
import HostBindings.Proofs.UnitContents
import HostBindings.Proofs.UnitShape
import HostBindings.Proofs.UnitTasks
import HostBindings.Rust.Assembly
import HostBindings.Rust.Boundary
import HostBindings.Rust.Collision
import HostBindings.Rust.HostUses
import HostBindings.Rust.Printer
import HostBindings.Rust.Unit
import HostBindings.Source.Concrete
import HostBindings.Source.Module
import HostBindings.Source.Reader
import HostBindings.Source.Rules
import HostBindings.Source.StringLiteral
import HostBindings.Source.Terminal
import HostBindings.Source.Token
import HostBindings.Source.TypeExpr
import HostBindings.Source.Visibility
import HostBindings.Specifier
import HostBindings.Text
import HostBindings.Text.DecimalDigit
import HostBindings.Text.Display
import HostBindings.Text.Integer
import HostBindings.Text.Lines
import HostBindings.Text.Quoted
import HostBindings.Text.Utf8
import HostBindings.Text.Visible
import HostBindings.Warning
