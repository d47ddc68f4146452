import AcornCatalog.Dependency.Analysis
import AcornCatalog.Identifier.Index
import AcornCatalog.Main
import AcornCatalog.Proofs.Dependency.Settling
import AcornCatalog.Proofs.Dependency.Queue
import AcornCatalog.Proofs.Dependency.Order
import AcornCatalog.Proofs.Store.Items
import AcornCatalog.Proofs.Store.Statements
import AcornCatalog.Service
import AcornCatalog.Tool
import AcornCatalog.Proofs.Export
import AcornCatalog.Proofs.Check.Bracket
import AcornCatalog.Proofs.Text.Line
import AcornCatalog.Proofs.Declaration.Block
import AcornCatalog.Proofs.Declaration.Reading
import AcornCatalog.Proofs.SourceFile
import AcornCatalog.Proofs.Store.Numbering
import AcornCatalog.Proofs.Service.Page
import AcornCatalog.Proofs.FrontEnd
import AcornCatalog.Proofs.Text.Reader
import AcornCatalog.Proofs.Declaration.Naming
import AcornCatalog.Proofs.Intake.Storing
import AcornCatalog.Proofs.SourcePath
import AcornCatalog.Proofs.SourceTree
import AcornCatalog.Proofs.Intake.Library
import AcornCatalog.Proofs.Check.Comment
import AcornCatalog.Proofs.Check.Report
import AcornCatalog.Proofs.Export.Text
import AcornCatalog.Proofs.Text.Blank
import AcornCatalog.Proofs.Declaration.Header
import AcornCatalog.Proofs.Declaration.Member
import AcornCatalog.Proofs.Declaration.Remark
import AcornCatalog.Proofs.SourceFile.Comment
import AcornCatalog.Proofs.Declaration.Brace
import AcornCatalog.Proofs.Dependency.Canonical
import AcornCatalog.Proofs.SourceFile.Layout
import AcornCatalog.Proofs.Declaration.Statement
import AcornCatalog.Proofs.Identifier.Mention
import AcornCatalog.Proofs.Declaration.ClassField
import AcornCatalog.Proofs.SourceFile.Declared
import AcornCatalog.Proofs.SourceFile.DefinitionName
import AcornCatalog.Proofs.SourceFile.Signature
import AcornCatalog.Proofs.SourceFile.Balance
import AcornCatalog.Proofs.Declaration.Binding
import AcornCatalog.Proofs.Store.Search
import AcornCatalog.Proofs.Identifier.Index
import AcornCatalog.Proofs.Service.Lookup
import AcornCatalog.Proofs.Text.Scan
import AcornCatalog.Proofs.Dependency.Shape
import AcornCatalog.Proofs.Dependency.Reason
import AcornCatalog.Proofs.Dependency.Operation
import AcornCatalog.Proofs.Declaration.Parameter
import AcornCatalog.Proofs.Dependency.Annotation
import AcornCatalog.Proofs.Check.Heading
import AcornCatalog.Proofs.Dependency.Growth
import AcornCatalog.Proofs.Dependency.Rebinding
import AcornCatalog.Proofs.Check.Nesting
import AcornCatalog.Proofs.Declaration.Attribute
import AcornCatalog.Proofs.Text.LineScan
import AcornCatalog.Proofs.Identifier.Place
import AcornCatalog.Proofs.Check.LineNumber
import AcornCatalog.Proofs.Dependency.Owner
import AcornCatalog.Proofs.Declaration.Matching
import AcornCatalog.Proofs.Check.Mask
import AcornCatalog.Proofs.Declaration.Indentation
import AcornCatalog.Proofs.Identifier.Component
