import PageContent.Number.Decimal
import PageContent.Number.Numeral
import PageContent.Text.Words
import PageContent.Json.Reader
import PageContent.Json.Writer
import PageContent.Geometry.Box
import PageContent.Color
import PageContent.Operand
import PageContent.Drawing.Path
import PageContent.Drawing.Operator
import PageContent.Drawing.Canvas
import PageContent.Line.Merge
import PageContent.Paragraph.Reflow
import PageContent.Scene.Build
import PageContent.Proofs.Paragraph.Conservation
import PageContent.Proofs.Line.Survivors
import PageContent.Proofs.Drawing.Batch
import PageContent.Proofs.Drawing.Rescale
import PageContent.Proofs.Drawing.WellFormed
import PageContent.Proofs.Drawing.Brackets
import PageContent.Proofs.Drawing.TextMode
import PageContent.Proofs.Line.Unrelated
import PageContent.Proofs.Drawing.Placing
import PageContent.Proofs.Text.Fragments
import PageContent.Proofs.Number.Decimals
import PageContent.Proofs.Scene.NodeIds
import PageContent.Proofs.Line.Covered
import PageContent.Proofs.Number.Written
import PageContent.Proofs.Json.Parsed
import PageContent.Proofs.Json.Writable
import PageContent.Proofs.Record.Finite
import PageContent.Proofs.Record.Reading
import PageContent.Proofs.Record.Text
import PageContent.Proofs.Record.Scene
import PageContent.Proofs.Record.Page
import PageContent.Proofs.Record.RoundTrip
import PageContent.Proofs.Drawing.Numbers
import PageContent.Proofs.Scene.Reload
import PageContent.Proofs.Drawing.Sound
import PageContent.Proofs.Drawing.Spelling
import PageContent.Proofs.Line.Assembled
import PageContent.Proofs.Paragraph.Greedy
import PageContent.Proofs.Line.Kernel
import PageContent.Proofs.Line.FirstMatch
import PageContent.Proofs.Text.Split
import PageContent.Proofs.Paragraph.Rows
import PageContent.Proofs.Paragraph.BlankLines
import PageContent.Proofs.Number.Ordered
import PageContent.Proofs.Paragraph.Room
import PageContent.Proofs.Drawing.Segmentation
import PageContent.Proofs.Drawing.Views
import PageContent.Proofs.Number.HalfUnits
import PageContent.Proofs.Paragraph.Remeasured
import PageContent.Proofs.Line.Together
import PageContent.Proofs.Text.Blocks
import PageContent.Proofs.Text.Measured
import PageContent.Proofs.Geometry.Composed
import PageContent.Proofs.Drawing.InForce
import PageContent.Proofs.Number.InRange
import PageContent.Proofs.Number.HalfDown
import PageContent.Proofs.Drawing.Saturation
import PageContent.Proofs.Line.LineIds
import PageContent.Proofs.Line.Spacing
import PageContent.Proofs.Drawing.Dictionary
import PageContent.Proofs.Drawing.Counts
import PageContent.Proofs.Number.Extreme
import PageContent.Proofs.Number.TotalOrder
import PageContent.Proofs.Geometry.Envelope
import PageContent.Proofs.Text.Places
import PageContent.Proofs.Paragraph.Anchors
