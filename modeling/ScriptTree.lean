import ScriptTree.Main
import ScriptTree.Proofs.Formats
import ScriptTree.Proofs.Mirror
import ScriptTree.Proofs.MarkupText
import ScriptTree.Proofs.MarkupLines
import ScriptTree.Proofs.TypeUse
import ScriptTree.Proofs.Interop
import ScriptTree.Proofs.StaleOutput
import ScriptTree.Proofs.ExportOrder
import ScriptTree.Proofs.TypeDeclarations
import ScriptTree.Proofs.Resolution
import ScriptTree.Proofs.Ending
import ScriptTree.Proofs.TemplateText
import ScriptTree.Proofs.Extensions
import ScriptTree.Proofs.Packages
import ScriptTree.Proofs.Ascent
import ScriptTree.Proofs.JsonStrings
