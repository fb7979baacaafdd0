import TemplateCompiler.Main
import TemplateCompiler.Proofs.Unhoisting
import TemplateCompiler.Proofs.Scoping
import TemplateCompiler.Proofs.ClosedCode
import TemplateCompiler.Proofs.Coverage
import TemplateCompiler.Proofs.BodyUses
import TemplateCompiler.Proofs.LoopMarkers
import TemplateCompiler.Proofs.ImpliedEnds
import TemplateCompiler.Proofs.RootReports
import TemplateCompiler.Proofs.Shorthand
import TemplateCompiler.Proofs.Feeding
import TemplateCompiler.Proofs.MissingReports
import TemplateCompiler.Proofs.UnbrokenElements
import TemplateCompiler.Proofs.PlainElements
import TemplateCompiler.Proofs.Guards
import TemplateCompiler.Proofs.CamelCase
import TemplateCompiler.Proofs.Interpolations
import TemplateCompiler.Proofs.MethodPaths
import TemplateCompiler.Proofs.ModelPaths
import TemplateCompiler.Proofs.EncodedTexts
import TemplateCompiler.Proofs.FilterChains
import TemplateCompiler.Proofs.TextEvents
import TemplateCompiler.Proofs.KeptTexts
import TemplateCompiler.Proofs.Positions
import TemplateCompiler.Proofs.Progress
import TemplateCompiler.Proofs.WrittenMarks
import TemplateCompiler.Proofs.Reentry
