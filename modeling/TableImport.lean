import TableImport.Expr.Printer
import TableImport.Main
import TableImport.Proofs.Expr.RoundTrip
import TableImport.Proofs.Row.Classification
import TableImport.Proofs.Row.Contents
import TableImport.Proofs.Row.History
import TableImport.Proofs.Table.RoundTrip
import TableImport.Proofs.Expr.Refusal
import TableImport.Proofs.Expr.Evaluation
import TableImport.Proofs.Expr.Agreement
import TableImport.Proofs.Row.Expressions
import TableImport.Proofs.Row.Unresolved
import TableImport.Proofs.Calendar.Reader
import TableImport.Proofs.Number.Spelling
import TableImport.Proofs.Table.Detection
import TableImport.Proofs.Row.Detection
import TableImport.Proofs.Row.Splitting
import TableImport.Proofs.Expr.Cutting
import TableImport.Proofs.Row.Accounting
import TableImport.Proofs.Expr.Names
import TableImport.Proofs.Row.Mentions
import TableImport.Proofs.Row.Columns
import TableImport.Proofs.Row.Confinement
import TableImport.Proofs.Row.Readback
import TableImport.Proofs.Row.RuleOrder
import TableImport.Proofs.Row.Snapshots
import TableImport.Proofs.Config.RoundTrip
import TableImport.Proofs.Config.Lookup
import TableImport.Proofs.Price.Positions
import TableImport.Proofs.Price.Batches
import TableImport.Proofs.Document.Entries
import TableImport.Proofs.Document.Batches
import TableImport.Proofs.Document.Frame
import TableImport.Proofs.Document.PathLaws
import TableImport.Proofs.Expr.Nulls
import TableImport.Proofs.Row.Preparation
import TableImport.Proofs.Row.Operands
import TableImport.Proofs.Row.Precision
import TableImport.Proofs.Expr.Parentheses
import TableImport.Proofs.Table.Amounts
import TableImport.Proofs.Calendar.Writing
import TableImport.Proofs.Row.EntityKeys
import TableImport.Proofs.Config.Structure
import TableImport.Proofs.Keyed.Positions
import TableImport.Proofs.Config.Insertion
import TableImport.Proofs.Row.Histogram
import TableImport.Proofs.Row.RejectReport
